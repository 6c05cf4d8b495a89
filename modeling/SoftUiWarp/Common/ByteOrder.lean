import SoftUiWarp.Lib.TcpStream

/-!
# Byte order (`arpa/inet.h`, `common/common.h`)

Hosts are little-endian: an integer field of a packed struct is `bytes16`,
`bytes32` or `bytes64` of its value, and `htons`, `htonl` and their inverses
reverse the bytes. `htonll` and `ntohll` are the macros of
`common/common.h`, lines 407–408, built from two 32-bit reversals.

Results: `ntohs_htons`, `ntohl_htonl`, `ntohll_htonll`, and the round trip of
each width through memory.
-/

namespace SoftUiWarp

open Endian

/-! ## Integers in host memory -/

/-- The two bytes of a `__u16` field. -/
def bytes16 (x : UInt16) : List UInt8 := toLE 2 x.toNat

/-- The four bytes of a `__u32` field. -/
def bytes32 (x : UInt32) : List UInt8 := toLE 4 x.toNat

/-- The eight bytes of a `__u64` field. -/
def bytes64 (x : UInt64) : List UInt8 := toLE 8 x.toNat

/-- A `__u16` read from its two bytes. -/
def word16 (bs : List UInt8) : UInt16 := UInt16.ofNat (ofLE bs)

/-- A `__u32` read from its four bytes. -/
def word32 (bs : List UInt8) : UInt32 := UInt32.ofNat (ofLE bs)

/-- A `__u64` read from its eight bytes. -/
def word64 (bs : List UInt8) : UInt64 := UInt64.ofNat (ofLE bs)

@[simp] theorem length_bytes16 (x : UInt16) : (bytes16 x).length = 2 := length_toLE _ _

@[simp] theorem length_bytes32 (x : UInt32) : (bytes32 x).length = 4 := length_toLE _ _

@[simp] theorem length_bytes64 (x : UInt64) : (bytes64 x).length = 8 := length_toLE _ _

@[simp] theorem word16_bytes16 (x : UInt16) : word16 (bytes16 x) = x := by
  have hx := x.toNat_lt
  rw [word16, bytes16, ofLE_toLE, Nat.mod_eq_of_lt (by omega), UInt16.ofNat_toNat]

@[simp] theorem word32_bytes32 (x : UInt32) : word32 (bytes32 x) = x := by
  have hx := x.toNat_lt
  rw [word32, bytes32, ofLE_toLE, Nat.mod_eq_of_lt (by omega), UInt32.ofNat_toNat]

@[simp] theorem word64_bytes64 (x : UInt64) : word64 (bytes64 x) = x := by
  have hx := x.toNat_lt
  rw [word64, bytes64, ofLE_toLE, Nat.mod_eq_of_lt (by omega), UInt64.ofNat_toNat]

theorem bytes16_word16 {bs : List UInt8} (h : bs.length = 2) : bytes16 (word16 bs) = bs := by
  have hlt := ofLE_lt bs
  rw [h] at hlt
  rw [bytes16, word16, UInt16.toNat_ofNat', Nat.mod_eq_of_lt (by omega), toLE_ofLE_of_length h]

theorem bytes32_word32 {bs : List UInt8} (h : bs.length = 4) : bytes32 (word32 bs) = bs := by
  have hlt := ofLE_lt bs
  rw [h] at hlt
  rw [bytes32, word32, UInt32.toNat_ofNat', Nat.mod_eq_of_lt (by omega), toLE_ofLE_of_length h]

theorem bytes64_word64 {bs : List UInt8} (h : bs.length = 8) : bytes64 (word64 bs) = bs := by
  have hlt := ofLE_lt bs
  rw [h] at hlt
  rw [bytes64, word64, UInt64.toNat_ofNat', Nat.mod_eq_of_lt (by omega), toLE_ofLE_of_length h]

/-! ## Conversions of a non-negative `int` -/

theorem UInt32.ofInt_natCast (n : ℕ) : UInt32.ofInt (n : ℤ) = UInt32.ofNat n := by
  apply UInt32.toNat_inj.mp
  simp only [UInt32.ofInt, UInt32.toNat_ofNat']
  omega

theorem UInt64.ofInt_natCast (n : ℕ) : UInt64.ofInt (n : ℤ) = UInt64.ofNat n := by
  apply UInt64.toNat_inj.mp
  simp only [UInt64.ofInt, UInt64.toNat_ofNat']
  omega

/-! ## Network byte order -/

def htons (x : UInt16) : UInt16 := UInt16.ofNat (swap 2 x.toNat)

def ntohs (x : UInt16) : UInt16 := UInt16.ofNat (swap 2 x.toNat)

def htonl (x : UInt32) : UInt32 := UInt32.ofNat (swap 4 x.toNat)

def ntohl (x : UInt32) : UInt32 := UInt32.ofNat (swap 4 x.toNat)

/-- `((uint64_t)htonl((x) & 0xFFFFFFFF) << 32) | htonl((x) >> 32)`. -/
def htonll (x : UInt64) : UInt64 :=
  ((htonl (x &&& 0xFFFFFFFF).toUInt32).toUInt64 <<< 32) ||| (htonl (x >>> 32).toUInt32).toUInt64

/-- `((uint64_t)ntohl((x) & 0xFFFFFFFF) << 32) | ntohl((x) >> 32)`. -/
def ntohll (x : UInt64) : UInt64 :=
  ((ntohl (x &&& 0xFFFFFFFF).toUInt32).toUInt64 <<< 32) ||| (ntohl (x >>> 32).toUInt32).toUInt64

@[simp] theorem ntohs_htons (x : UInt16) : ntohs (htons x) = x := by
  have hx := x.toNat_lt
  have hs : swap 2 x.toNat % 2 ^ 16 = swap 2 x.toNat := Nat.mod_eq_of_lt (swap_lt 2 x.toNat)
  rw [ntohs, htons, UInt16.toNat_ofNat', hs, swap_swap (by omega), UInt16.ofNat_toNat]

theorem htons_ntohs (x : UInt16) : htons (ntohs x) = x := ntohs_htons x

@[simp] theorem ntohl_htonl (x : UInt32) : ntohl (htonl x) = x := by
  have hx := x.toNat_lt
  have hs : swap 4 x.toNat % 2 ^ 32 = swap 4 x.toNat := Nat.mod_eq_of_lt (swap_lt 4 x.toNat)
  rw [ntohl, htonl, UInt32.toNat_ofNat', hs, swap_swap (by omega), UInt32.ofNat_toNat]

theorem ntohl_eq_htonl (x : UInt32) : ntohl x = htonl x := rfl

@[simp] theorem htonl_htonl (x : UInt32) : htonl (htonl x) = x := by
  rw [← ntohl_eq_htonl, ntohl_htonl]

/-! ### The 64-bit macros -/

/-- The value of `((uint64_t)hi << 32) | lo`. -/
theorem toNat_shl32_or (hi lo : UInt32) :
    (hi.toUInt64 <<< 32 ||| lo.toUInt64).toNat = hi.toNat * 2 ^ 32 + lo.toNat := by
  have hhi := hi.toNat_lt
  have hlo := lo.toNat_lt
  rw [UInt64.toNat_or, UInt64.toNat_shiftLeft, UInt32.toNat_toUInt64, UInt32.toNat_toUInt64,
    show (32 : UInt64).toNat % 64 = 32 by decide, Nat.shiftLeft_eq,
    Nat.mod_eq_of_lt (by omega : hi.toNat * 2 ^ 32 < 2 ^ 64), ← Nat.shiftLeft_eq,
    ← Nat.shiftLeft_add_eq_or_of_lt hlo, Nat.shiftLeft_eq]

theorem toUInt32_low (x : UInt64) : (x &&& 0xFFFFFFFF).toUInt32.toNat = x.toNat % 2 ^ 32 := by
  rw [UInt64.toNat_toUInt32, UInt64.toNat_and,
    show (0xFFFFFFFF : UInt64).toNat = 2 ^ 32 - 1 by decide, Nat.and_two_pow_sub_one_eq_mod,
    Nat.mod_mod]

theorem toUInt32_high (x : UInt64) : (x >>> 32).toUInt32.toNat = x.toNat / 2 ^ 32 := by
  have hx := x.toNat_lt
  rw [UInt64.toNat_toUInt32, UInt64.toNat_shiftRight, show (32 : UInt64).toNat % 64 = 32 by decide,
    Nat.shiftRight_eq_div_pow, Nat.mod_eq_of_lt (by omega)]

/-- The low half of `((uint64_t)hi << 32) | lo` is `lo`. -/
theorem toUInt32_low_shl32_or (hi lo : UInt32) :
    ((hi.toUInt64 <<< 32 ||| lo.toUInt64) &&& 0xFFFFFFFF).toUInt32 = lo := by
  have hlo := lo.toNat_lt
  apply UInt32.toNat_inj.mp
  rw [toUInt32_low, toNat_shl32_or]
  omega

/-- The high half of `((uint64_t)hi << 32) | lo` is `hi`. -/
theorem toUInt32_high_shl32_or (hi lo : UInt32) :
    ((hi.toUInt64 <<< 32 ||| lo.toUInt64) >>> 32).toUInt32 = hi := by
  have hlo := lo.toNat_lt
  apply UInt32.toNat_inj.mp
  rw [toUInt32_high, toNat_shl32_or]
  omega

@[simp] theorem ntohll_htonll (x : UInt64) : ntohll (htonll x) = x := by
  rw [ntohll, htonll, toUInt32_low_shl32_or, toUInt32_high_shl32_or, ntohl_htonl, ntohl_htonl]
  apply UInt64.toNat_inj.mp
  rw [toNat_shl32_or, toUInt32_low, toUInt32_high]
  omega

end SoftUiWarp
