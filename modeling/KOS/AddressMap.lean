import KOS.LinkMemory

/-! A byte memory behind a map of addresses: pages may lie anywhere, and two of them at the same place.
What a range of addresses means is the set of memory cells behind it. Nothing here names a program. -/

namespace KOS.AddressMap
open KOS.ByteMemory KOS.LinkMemory

section Access

variable (t : Nat → Nat)

/-- The cell of an address; addresses wrap at 2^32. -/
def cell (a : Nat) : Nat := t (a % 2 ^ 32)

def read (m : Memory) (a : Nat) : UInt8 := m (cell t a)

def write (m : Memory) (a : Nat) (v : UInt8) : Memory := Function.update m (cell t a) v

def read16 (m : Memory) (a : Nat) : Nat := word16 (read t m) a

/-- Little endian. -/
def read32 (m : Memory) (a : Nat) : Nat :=
  (read t m a).toNat + 2 ^ 8 * (read t m (a + 1)).toNat + 2 ^ 16 * (read t m (a + 2)).toNat +
    2 ^ 24 * (read t m (a + 3)).toNat

def write32 (m : Memory) (a v : Nat) : Memory :=
  write t (write t (write t (write t m a (byteOf v 0)) (a + 1) (byteOf v 1)) (a + 2) (byteOf v 2)) (a + 3) (byteOf v 3)

/-- Moves bytes upwards, one at a time. -/
def move : Nat → Memory → Nat → Nat → Memory
  | 0, m, _, _ => m
  | n + 1, m, dst, src => move n (write t m dst (read t m src)) (dst + 1) (src + 1)

/-- The cells behind `n` addresses from `a` on. -/
def cells (a n : Nat) : Set Nat := {x | ∃ k < n, x = cell t (a + k)}

/-- Different addresses of the range have different cells. -/
def Once (a n : Nat) : Prop := ∀ j < n, ∀ k < n, cell t (a + j) = cell t (a + k) → j = k

end Access

variable {t : Nat → Nat} {S : Set Nat} {m m' : Memory} {a b n : Nat}

theorem cell_wrap (t : Nat → Nat) (a k : Nat) : cell t (a % 2 ^ 32 + k) = cell t (a + k) := by
  rw [cell, cell, Nat.mod_add_mod]

theorem Once.part {k : Nat} (once : Once t a n) (less : k ≤ n) : Once t a k :=
  fun i low j low' same => once i (by omega) j (by omega) same

theorem mem_cells {k : Nat} (inside : k < n) : cell t (a + k) ∈ cells t a n := ⟨k, inside, rfl⟩

theorem cells_part {k l : Nat} (inside : k + l ≤ n) : cells t (a + k) l ⊆ cells t a n := by
  rintro x ⟨j, low, rfl⟩
  exact ⟨k + j, by omega, by rw [Nat.add_assoc]⟩

theorem read_congr (changes : ChangesOnly S m m') (outside : cell t a ∉ S) : read t m' a = read t m a :=
  changes _ outside

theorem read32_congr (changes : ChangesOnly S m m') (outside : ∀ x ∈ cells t a 4, x ∉ S) :
    read32 t m' a = read32 t m a := by
  have byte : ∀ k, k < 4 → read t m' (a + k) = read t m (a + k) := by
    intro k inside
    exact read_congr changes (outside _ (mem_cells inside))
  have first := byte 0 (by decide)
  rw [Nat.add_zero] at first
  simp only [read32, first, byte 1 (by decide), byte 2 (by decide), byte 3 (by decide)]

theorem read32_lt (m : Memory) (a : Nat) : read32 t m a < 2 ^ 32 := by
  have bytes := fun x : UInt8 => x.toNat_lt
  have b0 := bytes (read t m a)
  have b1 := bytes (read t m (a + 1))
  have b2 := bytes (read t m (a + 2))
  have b3 := bytes (read t m (a + 3))
  unfold read32
  omega

/-- The low byte of a word. -/
theorem read_toNat (m : Memory) (a : Nat) : (read t m a).toNat = read32 t m a % 2 ^ 8 := by
  have low := (read t m a).toNat_lt
  unfold read32
  omega

theorem write_changes (m : Memory) (a : Nat) (v : UInt8) : ChangesOnly (cells t a 1) m (write t m a v) := by
  intro x outside
  apply Function.update_of_ne
  rintro rfl
  exact outside ⟨0, by decide, rfl⟩

theorem read_write_self (m : Memory) (a : Nat) (v : UInt8) : read t (write t m a v) a = v := Function.update_self ..

theorem read_write_other (m : Memory) {a b : Nat} (v : UInt8) (apart : cell t b ≠ cell t a) :
    read t (write t m a v) b = read t m b := Function.update_of_ne apart ..

theorem write32_changes (m : Memory) (a v : Nat) : ChangesOnly (cells t a 4) m (write32 t m a v) := by
  have byte (m : Memory) (k : Nat) (v : UInt8) (inside : k < 4) : ChangesOnly (cells t a 4) m (write t m (a + k) v) :=
    (write_changes m (a + k) v).mono (cells_part (by omega))
  have first := byte m 0 (byteOf v 0) (by decide)
  exact ((first.trans (byte _ 1 _ (by decide))).trans (byte _ 2 _ (by decide))).trans (byte _ 3 _ (by decide))

theorem read32_write32 (m : Memory) {a v : Nat} (once : Once t a 4) (small : v < 2 ^ 32) :
    read32 t (write32 t m a v) a = v := by
  have apart : ∀ j < 4, ∀ k < 4, j ≠ k → cell t (a + j) ≠ cell t (a + k) :=
    fun j low k low' different same => different (once j low k low' same)
  have byte3 : read t (write32 t m a v) (a + 3) = byteOf v 3 := read_write_self ..
  have byte2 : read t (write32 t m a v) (a + 2) = byteOf v 2 := by
    rw [write32, read_write_other _ _ (apart 2 (by decide) 3 (by decide) (by decide))]
    exact read_write_self ..
  have byte1 : read t (write32 t m a v) (a + 1) = byteOf v 1 := by
    rw [write32, read_write_other _ _ (apart 1 (by decide) 3 (by decide) (by decide)),
      read_write_other _ _ (apart 1 (by decide) 2 (by decide) (by decide))]
    exact read_write_self ..
  have byte0 : read t (write32 t m a v) a = byteOf v 0 := by
    have first : ∀ k < 4, 0 ≠ k → cell t a ≠ cell t (a + k) := apart 0 (by decide)
    rw [write32, read_write_other _ _ (first 3 (by decide) (by decide)),
      read_write_other _ _ (first 2 (by decide) (by decide)), read_write_other _ _ (first 1 (by decide) (by decide))]
    exact read_write_self ..
  simp only [read32, byte0, byte1, byte2, byte3, byteOf_toNat]
  omega

theorem move_changes (n : Nat) (m : Memory) (dst src : Nat) : ChangesOnly (cells t dst n) m (move t n m dst src) := by
  induction n generalizing m dst src with
  | zero => exact ChangesOnly.refl _ m
  | succ n ih =>
    have first : ChangesOnly (cells t dst (n + 1)) m (write t m dst (read t m src)) :=
      (write_changes m dst _).mono (cells_part (k := 0) (by omega))
    exact first.trans ((ih _ _ _).mono (cells_part (by omega)))

/-- What is moved arrives, when the source is apart from the destination. -/
theorem read_move (n : Nat) (m : Memory) {dst src : Nat} (once : Once t dst n)
    (apart : ∀ k < n, cell t (src + k) ∉ cells t dst n) {k : Nat} (inside : k < n) :
    read t (move t n m dst src) (dst + k) = read t m (src + k) := by
  induction n generalizing m dst src k with
  | zero => omega
  | succ n ih =>
    rw [move]
    cases k with
    | zero =>
      have kept := move_changes (t := t) n (write t m dst (read t m src)) (dst + 1) (src + 1)
      rw [Nat.add_zero, Nat.add_zero, read_congr kept]
      · exact read_write_self ..
      · rintro ⟨j, low, same⟩
        have equal := once 0 (by omega) (j + 1) (by omega) (by rw [same, Nat.add_assoc, Nat.add_comm 1])
        omega
    | succ k =>
      have later : read t (move t n (write t m dst (read t m src)) (dst + 1) (src + 1)) (dst + 1 + k) =
          read t (write t m dst (read t m src)) (src + 1 + k) := by
        apply ih
        · intro i low j low' same
          rw [Nat.add_assoc, Nat.add_assoc, Nat.add_comm 1, Nat.add_comm 1] at same
          exact Nat.succ.inj (once (i + 1) (by omega) (j + 1) (by omega) same)
        · intro i low member
          rw [Nat.add_assoc, Nat.add_comm 1] at member
          exact apart (i + 1) (by omega) (cells_part (by omega) member)
        · omega
      have source : cell t (src + (k + 1)) ≠ cell t dst := by
        intro same
        exact apart (k + 1) inside ⟨0, by omega, by rw [same, Nat.add_zero]⟩
      rw [show dst + (k + 1) = dst + 1 + k by omega, later, show src + 1 + k = src + (k + 1) by omega,
        read_write_other _ _ source]

end KOS.AddressMap
