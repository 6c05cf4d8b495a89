import SoftUiWarp.Lib.Endian

/-!
# Byte-addressed 64-bit memory with a record of its stores

A memory `Mem` is its initial content together with the chronological list of
the single-byte stores made since. `Mem.load` is the content after replaying
them. Keeping the list makes statements about *where* a program stores
directly expressible; two memories with the same initial content and the same
list are equal.

A `Buf` is a small mutable object outside that memory (a C struct on the
stack), a function from byte offsets to bytes.

Results:
* `stores_append`: storing a concatenation is storing its parts one after
  another.
* `mem_stores`, `Mem.load_write_of_forall_ne`: which addresses a store touches,
  and that no other address changes.
* `replay_stores`, `replay_stores_sub`: the content after storing a byte string.
* `Mem.read_write_stores`: reading it back.
* `Mem.Keeps.write`: what was stored stays but where something is stored later.
* `Tiles.snoc`, `TilesAll.snoc`: a tiling of a part of the memory, one range at a
  time; `TilesAll.read`: reading the ranges reads the regions they tile.
* `Buf.bytes_patch`: reading back what was written into a struct.
-/

namespace ByteMem

/-! ## Stores -/

/-- The single-byte stores of writing `bs` at `a`, `a + 1`, … (modulo `2 ^ 64`). -/
def stores (a : UInt64) (bs : List UInt8) : List (UInt64 × UInt8) :=
  bs.zipIdx.map fun p => (a + UInt64.ofNat p.2, p.1)

@[simp] theorem stores_nil (a : UInt64) : stores a [] = [] := rfl

@[simp] theorem length_stores (a : UInt64) (bs : List UInt8) :
    (stores a bs).length = bs.length := by
  simp [stores]

theorem stores_append (a : UInt64) (bs cs : List UInt8) :
    stores a (bs ++ cs) = stores a bs ++ stores (a + UInt64.ofNat bs.length) cs := by
  simp only [stores, List.zipIdx_append, List.map_append]
  congr 1
  rw [Nat.zero_add, List.zipIdx_eq_map_add, List.map_map]
  apply List.map_congr_left
  rintro ⟨b, i⟩ _
  simp only [Function.comp_apply, UInt64.ofNat_add]
  rw [add_assoc]

theorem stores_cons (a : UInt64) (b : UInt8) (bs : List UInt8) :
    stores a (b :: bs) = (a, b) :: stores (a + 1) bs := by
  have h := stores_append a [b] bs
  simpa [stores] using h

theorem mem_stores {a : UInt64} {bs : List UInt8} {w : UInt64 × UInt8} :
    w ∈ stores a bs ↔ ∃ i, ∃ h : i < bs.length, w = (a + UInt64.ofNat i, bs[i]) := by
  simp only [stores, List.mem_map, Prod.exists, List.mem_zipIdx_iff_getElem?]
  constructor
  · rintro ⟨b, i, hb, rfl⟩
    obtain ⟨hi, rfl⟩ := List.getElem?_eq_some_iff.mp hb
    exact ⟨i, hi, rfl⟩
  · rintro ⟨i, hi, rfl⟩
    exact ⟨bs[i], i, List.getElem?_eq_getElem hi, rfl⟩

/-! ## Memory -/

/-- Initial content and the stores made since, oldest first. -/
structure Mem where
  base : UInt64 → UInt8
  log : List (UInt64 × UInt8)

/-- The memory content after replaying a list of stores. -/
def replay (f : UInt64 → UInt8) (ws : List (UInt64 × UInt8)) : UInt64 → UInt8 :=
  ws.foldl (fun g w => Function.update g w.1 w.2) f

theorem replay_append (f : UInt64 → UInt8) (ws ws' : List (UInt64 × UInt8)) :
    replay f (ws ++ ws') = replay (replay f ws) ws' := by
  simp [replay]

theorem replay_of_forall_ne {f : UInt64 → UInt8} {ws : List (UInt64 × UInt8)} {a : UInt64}
    (h : ∀ w ∈ ws, w.1 ≠ a) : replay f ws a = f a := by
  induction ws generalizing f with
  | nil => rfl
  | cons w ws ih =>
    have hw : w.1 ≠ a := h w (by simp)
    rw [replay, List.foldl_cons]
    change replay (Function.update f w.1 w.2) ws a = f a
    rw [ih fun x hx => h x (by simp [hx]), Function.update_of_ne hw.symm]

/-- Storing a byte string that does not wrap around. -/
theorem replay_stores (bs : List UInt8) : ∀ (f : UInt64 → UInt8) (a x : UInt64),
    a.toNat + bs.length ≤ 2 ^ 64 →
    replay f (stores a bs) x =
      if a.toNat ≤ x.toNat ∧ x.toNat < a.toNat + bs.length then bs.getD (x.toNat - a.toNat) 0
      else f x := by
  induction bs with
  | nil => intro f a x _; simp [replay]
  | cons b bs ih =>
    intro f a x h
    rw [stores_cons]
    change replay (Function.update f a b) (stores (a + 1) bs) x = _
    rcases List.eq_nil_or_concat bs with rfl | hne
    · by_cases hx : x = a
      · subst hx
        simp [replay]
      · have hne : x.toNat ≠ a.toNat := fun he => hx (UInt64.toNat_inj.mp he)
        rw [if_neg (by simp; omega)]
        simp [replay, hx]
    · have hpos : 0 < bs.length := by
        obtain ⟨l, c, rfl⟩ := hne
        simp
      rw [List.length_cons] at h
      have ha : (a + 1).toNat = a.toNat + 1 := by
        rw [UInt64.toNat_add, show (1 : UInt64).toNat = 1 by rfl]
        omega
      rw [ih _ _ _ (by omega), ha, List.length_cons]
      by_cases hx : x = a
      · subst hx
        rw [if_neg (by omega), if_pos (by omega)]
        simp
      · have hne : x.toNat ≠ a.toNat := fun he => hx (UInt64.toNat_inj.mp he)
        by_cases hin : a.toNat + 1 ≤ x.toNat ∧ x.toNat < a.toNat + 1 + bs.length
        · rw [if_pos hin, if_pos (by omega), show x.toNat - a.toNat = x.toNat - (a.toNat + 1) + 1 by
            omega]
          simp
        · rw [if_neg hin, if_neg (by omega), Function.update_of_ne hx]

/-- Storing a byte string, with addresses taken modulo `2 ^ 64`. -/
theorem replay_stores_sub (bs : List UInt8) : ∀ (f : UInt64 → UInt8) (a x : UInt64),
    bs.length ≤ 2 ^ 64 → replay f (stores a bs) x = (bs[(x - a).toNat]?).getD (f x) := by
  induction bs with
  | nil => intro f a x _; simp [replay]
  | cons b bs ih =>
    intro f a x h
    rw [List.length_cons] at h
    rw [stores_cons]
    change replay (Function.update f a b) (stores (a + 1) bs) x = _
    rw [ih _ _ _ (by omega)]
    have hsub : x - (a + 1) = x - a - 1 := by rw [sub_add_eq_sub_sub]
    by_cases hx : x = a
    · subst hx
      have hnone : bs[(x - (x + 1)).toNat]? = none := by
        rw [hsub, sub_self]
        exact List.getElem?_eq_none (by
          have : ((0 : UInt64) - 1).toNat = 2 ^ 64 - 1 := by decide
          omega)
      rw [hnone, sub_self]
      simp
    · have hpos : (x - a).toNat = (x - (a + 1)).toNat + 1 := by
        have hne : x - a ≠ 0 := sub_ne_zero.mpr hx
        have h0 : (x - a).toNat ≠ 0 := fun he => hne (UInt64.toNat_inj.mp he)
        have h1 : (1 : UInt64) ≤ x - a := by
          rw [UInt64.le_iff_toNat_le]
          simpa using Nat.one_le_iff_ne_zero.mpr h0
        rw [hsub, UInt64.toNat_sub_of_le _ _ h1]
        simp only [UInt64.toNat_one]
        omega
      rw [hpos, List.getElem?_cons_succ, Function.update_of_ne hx]

/-- The current content. -/
def Mem.load (m : Mem) : UInt64 → UInt8 := replay m.base m.log

/-- Make the given single-byte stores, in order. -/
def Mem.write (m : Mem) (ws : List (UInt64 × UInt8)) : Mem := { m with log := m.log ++ ws }

@[simp] theorem Mem.write_base (m : Mem) (ws : List (UInt64 × UInt8)) :
    (m.write ws).base = m.base := rfl

@[simp] theorem Mem.write_log (m : Mem) (ws : List (UInt64 × UInt8)) :
    (m.write ws).log = m.log ++ ws := rfl

@[simp] theorem Mem.write_nil (m : Mem) : m.write [] = m := by
  simp [Mem.write]

theorem Mem.load_write (m : Mem) (ws : List (UInt64 × UInt8)) :
    (m.write ws).load = replay m.load ws :=
  replay_append _ _ _

theorem Mem.load_write_of_forall_ne {m : Mem} {ws : List (UInt64 × UInt8)} {a : UInt64}
    (h : ∀ w ∈ ws, w.1 ≠ a) : (m.write ws).load a = m.load a := by
  rw [Mem.load_write, replay_of_forall_ne h]

/-- The `n` bytes at `a`, `a + 1`, … (modulo `2 ^ 64`). -/
def Mem.read (m : Mem) (a : UInt64) (n : ℕ) : List UInt8 :=
  (List.range n).map fun i => m.load (a + UInt64.ofNat i)

@[simp] theorem Mem.length_read (m : Mem) (a : UInt64) (n : ℕ) : (m.read a n).length = n := by
  simp [Mem.read]

@[simp] theorem Mem.read_zero (m : Mem) (a : UInt64) : m.read a 0 = [] := rfl

theorem Mem.read_add (m : Mem) (a : UInt64) (k n : ℕ) :
    m.read a (k + n) = m.read a k ++ m.read (a + UInt64.ofNat k) n := by
  simp only [Mem.read, List.range_add, List.map_append, List.map_map]
  congr 1
  apply List.map_congr_left
  intro i _
  simp [UInt64.ofNat_add, add_assoc]

/-- A byte string that was just stored is read back. -/
theorem Mem.read_write_stores (m : Mem) (a : UInt64) {bs : List UInt8} (h : bs.length ≤ 2 ^ 64) :
    (m.write (stores a bs)).read a bs.length = bs := by
  apply List.ext_getElem
  · simp
  · intro i h1 h2
    have hi : (UInt64.ofNat i).toNat = i := UInt64.toNat_ofNat_of_lt (h2.trans_le h)
    simp only [Mem.read, List.getElem_map, List.getElem_range, Mem.load_write]
    rw [replay_stores_sub bs _ _ _ h, add_sub_cancel_left, hi, List.getElem?_eq_getElem h2]
    rfl

/-- A non-empty store changes the record of stores. -/
theorem Mem.write_stores_ne (m : Mem) (a : UInt64) {bs : List UInt8} (h : bs ≠ []) :
    m.write (stores a bs) ≠ m := by
  intro he
  have hlen := congrArg (fun m => m.log.length) he
  have hpos := List.length_pos_iff.mpr h
  simp at hlen
  exact h hlen

/-- Storing a part of another memory copies it. -/
theorem Mem.load_write_read (m src : Mem) (a b : UInt64) {n : ℕ} (hn : n ≤ 2 ^ 64) :
    ∀ i < n, (m.write (stores a (src.read b n))).load (a + UInt64.ofNat i) =
      src.load (b + UInt64.ofNat i) := by
  intro i hi
  have hself := @Mem.read_write_stores m a (src.read b n) (by simpa using hn)
  rw [Mem.length_read] at hself
  exact List.map_inj_left.mp hself i (List.mem_range.mpr hi)

/-- Storing a byte string changes only the bytes it covers. -/
theorem Mem.load_write_stores_of_ne (m : Mem) {a x : UInt64} {bs : List UInt8}
    (h : ∀ i < bs.length, x ≠ a + UInt64.ofNat i) : (m.write (stores a bs)).load x = m.load x := by
  refine Mem.load_write_of_forall_ne fun w hw => ?_
  obtain ⟨i, hi, rfl⟩ := mem_stores.mp hw
  exact (h i hi).symm

/-- The bytes `bs` were stored at `a`, and are there but where one of the stores
    made since has hit them. -/
def Mem.Keeps (m : Mem) (a : UInt64) (bs : List UInt8) : Prop :=
  ∃ before after, m.log = before ++ stores a bs ++ after ∧
    (bs.length ≤ 2 ^ 64 → ∀ i, ∀ hi : i < bs.length, (∀ w ∈ after, w.1 ≠ a + UInt64.ofNat i) →
      m.load (a + UInt64.ofNat i) = bs[i])

theorem Mem.keeps_stores (m : Mem) (a : UInt64) (bs : List UInt8) :
    (m.write (stores a bs)).Keeps a bs := by
  refine ⟨m.log, [], by simp, fun hlen i hi _ => ?_⟩
  have hi' : (UInt64.ofNat i).toNat = i := UInt64.toNat_ofNat_of_lt (hi.trans_le hlen)
  rw [Mem.load_write, replay_stores_sub bs _ _ _ hlen, add_sub_cancel_left, hi',
    List.getElem?_eq_getElem hi, Option.getD_some]

theorem Mem.Keeps.write {m : Mem} {a : UInt64} {bs : List UInt8} (h : m.Keeps a bs)
    (ws : List (UInt64 × UInt8)) : (m.write ws).Keeps a bs := by
  obtain ⟨before, after, hlog, hload⟩ := h
  refine ⟨before, after ++ ws, by rw [Mem.write_log, hlog, List.append_assoc],
    fun hlen i hi hne => ?_⟩
  rw [Mem.load_write_of_forall_ne fun w hw => hne w (List.mem_append_right _ hw)]
  exact hload hlen i hi fun w hw => hne w (List.mem_append_left _ hw)

/-! ## Ranges -/

/-- A range of addresses: where it starts, and how many bytes it has. -/
abbrev MemRange := UInt64 × ℕ

/-- The ranges tile the `n` bytes at `a`: the first starts at `a`, every other one
    where the one before it ends, and they have `n` bytes together. -/
def Tiles : UInt64 → ℕ → List MemRange → Prop
  | _, n, [] => n = 0
  | a, n, (b, k) :: rs => b = a ∧ k ≤ n ∧ Tiles (a + UInt64.ofNat k) (n - k) rs

/-- The ranges tile one region after the other: they fall into one group for
    each region, and the group tiles it. -/
def TilesAll (regions rs : List MemRange) : Prop :=
  ∃ groups : List (List MemRange), rs = groups.flatten ∧
    List.Forall₂ (fun r g => Tiles r.1 r.2 g) regions groups

theorem Tiles.snoc {a : UInt64} {n : ℕ} {rs : List MemRange} (h : Tiles a n rs) (k : ℕ) :
    Tiles a (n + k) (rs ++ [(a + UInt64.ofNat n, k)]) := by
  induction rs generalizing a n with
  | nil =>
    obtain rfl : n = 0 := h
    simp [Tiles]
  | cons r rs ih =>
    obtain ⟨b, j⟩ := r
    obtain ⟨rfl, hj, hrs⟩ := h
    have hend : b + UInt64.ofNat j + UInt64.ofNat (n - j) = b + UInt64.ofNat n := by
      rw [add_assoc, ← UInt64.ofNat_add, Nat.add_sub_cancel' hj]
    have hrest := ih hrs
    rw [hend, ← Nat.sub_add_comm hj] at hrest
    exact ⟨rfl, by omega, hrest⟩

theorem Tiles.read {a : UInt64} {n : ℕ} {rs : List MemRange} (h : Tiles a n rs) (m : Mem) :
    (rs.flatMap fun r => m.read r.1 r.2) = m.read a n := by
  induction rs generalizing a n with
  | nil =>
    obtain rfl : n = 0 := h
    rfl
  | cons r rs ih =>
    obtain ⟨b, k⟩ := r
    obtain ⟨rfl, hk, hrs⟩ := h
    rw [List.flatMap_cons, ih hrs, ← m.read_add, Nat.add_sub_cancel' hk]

theorem TilesAll.nil : TilesAll [] [] := ⟨[], rfl, .nil⟩

theorem TilesAll.snoc {regions rs g : List MemRange} {a : UInt64} {n : ℕ} (h : TilesAll regions rs)
    (hg : Tiles a n g) : TilesAll (regions ++ [(a, n)]) (rs ++ g) := by
  obtain ⟨groups, rfl, hall⟩ := h
  refine ⟨groups ++ [g], by simp, ?_⟩
  exact List.rel_append hall (.cons hg .nil)

/-- Reading the ranges of a tiling reads the regions. -/
theorem TilesAll.read {regions rs : List MemRange} (h : TilesAll regions rs) (m : Mem) :
    (rs.flatMap fun r => m.read r.1 r.2) = regions.flatMap fun r => m.read r.1 r.2 := by
  obtain ⟨groups, rfl, hall⟩ := h
  induction hall with
  | nil => rfl
  | cons hg _ ih => rw [List.flatten_cons, List.flatMap_append, ih, hg.read m, List.flatMap_cons]

/-! ## Structs outside the memory -/

/-- A mutable struct as its bytes, by offset. -/
abbrev Buf := ℕ → UInt8

/-- Write the given bytes at the given offsets, in order. -/
def Buf.patch (b : Buf) (ws : List (UInt8 × ℕ)) : Buf :=
  ws.foldl (fun g w => Function.update g w.2 w.1) b

/-- The `n` bytes from offset `o` on. -/
def Buf.bytes (b : Buf) (o n : ℕ) : List UInt8 := (List.range' o n).map b

@[simp] theorem Buf.length_bytes (b : Buf) (o n : ℕ) : (b.bytes o n).length = n := by
  simp [Buf.bytes]

theorem Buf.patch_apply (b : Buf) (bs : List UInt8) (o i : ℕ) :
    b.patch (bs.zipIdx o) i =
      if o ≤ i ∧ i < o + bs.length then bs.getD (i - o) 0 else b i := by
  induction bs generalizing b o with
  | nil => simp [Buf.patch]
  | cons x bs ih =>
    have hstep : b.patch ((x :: bs).zipIdx o) =
        Buf.patch (Function.update b o x) (bs.zipIdx (o + 1)) := by
      simp [Buf.patch, List.zipIdx_cons]
    rw [hstep, ih]
    by_cases hi : i = o
    · subst hi
      simp
    · by_cases hr : o + 1 ≤ i ∧ i < o + 1 + bs.length
      · have hr' : o ≤ i ∧ i < o + (x :: bs).length := by simp only [List.length_cons]; omega
        rw [if_pos hr, if_pos hr', show i - o = i - (o + 1) + 1 by omega]
        simp
      · have hr' : ¬(o ≤ i ∧ i < o + (x :: bs).length) := by simp only [List.length_cons]; omega
        rw [if_neg hr, if_neg hr', Function.update_of_ne hi]

/-- Reading back a part of what was just written. -/
theorem Buf.bytes_patch (b : Buf) (bs : List UInt8) (o k n : ℕ) (h : k + n ≤ bs.length) :
    (b.patch (bs.zipIdx o)).bytes (o + k) n = (bs.drop k).take n := by
  apply List.ext_getElem
  · simp; omega
  · intro i h1 h2
    simp only [Buf.length_bytes] at h1
    have hin : o ≤ o + k + i ∧ o + k + i < o + bs.length := by omega
    simp only [Buf.bytes, List.getElem_map, List.getElem_range', Nat.one_mul, Buf.patch_apply,
      List.getElem_take, List.getElem_drop]
    rw [if_pos hin, show o + k + i - o = k + i by omega, List.getD_eq_getElem _ _ (by omega)]

theorem Buf.bytes_patch_self {b : Buf} {bs : List UInt8} {o n : ℕ} (h : bs.length = n) :
    (b.patch (bs.zipIdx o)).bytes o n = bs := by
  have := Buf.bytes_patch b bs o 0 n (by omega)
  rwa [Nat.add_zero, List.drop_zero, List.take_of_length_le (by omega)] at this

/-- Bytes outside the written range are unchanged. -/
theorem Buf.bytes_patch_of_disjoint {b : Buf} {bs : List UInt8} {o k n : ℕ}
    (h : k + n ≤ o ∨ o + bs.length ≤ k) : (b.patch (bs.zipIdx o)).bytes k n = b.bytes k n := by
  simp only [Buf.bytes]
  apply List.map_congr_left
  intro i hi
  obtain ⟨j, hj, rfl⟩ := List.mem_range'.mp hi
  rw [Buf.patch_apply, if_neg (by omega)]

/-- A field of a struct after part of the struct was received. -/
theorem Buf.bytes_patch_start (b : Buf) {raw : List UInt8} {o w : ℕ} (h : raw.length ≤ o + w) :
    (b.patch raw.zipIdx).bytes o w = raw.drop o ++ (b.bytes o w).drop (raw.length - o) := by
  apply List.ext_getElem
  · simp
    omega
  · intro i h1 h2
    simp only [Buf.length_bytes] at h1
    simp only [Buf.bytes, List.getElem_map, List.getElem_range', Nat.one_mul]
    rw [Buf.patch_apply]
    by_cases hi : o + i < raw.length
    · rw [if_pos (by omega), List.getElem_append_left (by simp; omega), List.getElem_drop,
        List.getD_eq_getElem _ _ (by omega)]
      rfl
    · rw [if_neg (by omega), List.getElem_append_right (by simp; omega)]
      simp only [List.getElem_drop, List.getElem_map, List.getElem_range', Nat.one_mul,
        List.length_drop]
      congr 1
      omega

end ByteMem
