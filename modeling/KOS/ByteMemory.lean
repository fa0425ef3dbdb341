import Mathlib

/-! Byte-addressed memory of a 32-bit machine. Addresses wrap at 2^32, so every
statement about a buffer is about offsets from its base. -/

namespace KOS.ByteMemory

abbrev Memory := Nat → UInt8

def load (m : Memory) (a : Nat) : UInt8 := m (a % 2 ^ 32)

def store (m : Memory) (a : Nat) (v : UInt8) : Memory :=
  fun x => if x = a % 2 ^ 32 then v else m x

/-- Stores `f 0`, `f 1`, ... at consecutive addresses, lowest first. -/
def fill : Memory → Nat → Nat → (Nat → UInt8) → Memory
  | m, _, 0, _ => m
  | m, a, n + 1, f => fill (store m a (f 0)) (a + 1) n (fun k => f (k + 1))

theorem load_congr (m : Memory) {a b : Nat} (same : a % 2 ^ 32 = b % 2 ^ 32) :
    load m a = load m b := by
  simp only [load, same]

theorem load_store (m : Memory) (a b : Nat) (v : UInt8) :
    load (store m a v) b = if b % 2 ^ 32 = a % 2 ^ 32 then v else load m b := rfl

/-- A filled range holds the filling, and every other byte of the address space is untouched. -/
theorem load_fill (m : Memory) (a n : Nat) (f : Nat → UInt8) (fits : n ≤ 2 ^ 32)
    (k : Nat) (inside : k < 2 ^ 32) :
    load (fill m a n f) (a + k) = if k < n then f k else load m (a + k) := by
  induction n generalizing m a f k with
  | zero => simp [fill]
  | succ n ih =>
    rw [fill]
    cases k with
    | zero =>
      have wrapped : load (fill (store m a (f 0)) (a + 1) n (fun k => f (k + 1))) (a + 0) =
          load (fill (store m a (f 0)) (a + 1) n (fun k => f (k + 1))) (a + 1 + (2 ^ 32 - 1)) :=
        load_congr _ (by omega)
      rw [wrapped, ih _ _ _ (by omega) _ (by omega), if_neg (by omega), load_store,
        if_pos (by omega), if_pos (by omega)]
    | succ k =>
      rw [show a + (k + 1) = a + 1 + k by omega, ih _ _ _ (by omega) _ (by omega)]
      by_cases covered : k < n
      · rw [if_pos covered, if_pos (by omega)]
      · rw [if_neg covered, if_neg (by omega), load_store, if_neg (by omega)]

/-- How far byte `k` of a buffer is from byte `o` of it, around the address space. -/
def distance (k o : Nat) : Nat := (k + (2 ^ 32 - o % 2 ^ 32)) % 2 ^ 32

theorem distance_lt (k o : Nat) : distance k o < 2 ^ 32 := Nat.mod_lt _ (by decide)

/-- The same seen from a buffer at `a`, when the filled range starts at offset `o` of it. -/
theorem load_fill_offset (m : Memory) {p a o n : Nat} (f : Nat → UInt8)
    (same : p % 2 ^ 32 = (a + o) % 2 ^ 32) (fits : n ≤ 2 ^ 32) (k : Nat) :
    load (fill m p n f) (a + k) =
      if distance k o < n then f (distance k o) else load m (a + k) := by
  have from_ : (a + k) % 2 ^ 32 = (p + distance k o) % 2 ^ 32 := by
    unfold distance
    omega
  rw [load_congr _ from_, load_fill m p n f fits _ (distance_lt k o), ← load_congr m from_]

/-- `while (n-- > 0) *pStr++ = ch`. -/
def memset : Memory → Nat → UInt8 → Nat → Memory
  | m, _, _, 0 => m
  | m, str, ch, n + 1 => memset (store m str ch) (str + 1) ch n

theorem memset_eq_fill (m : Memory) (str : Nat) (ch : UInt8) (n : Nat) :
    memset m str ch n = fill m str n (fun _ => ch) := by
  induction n generalizing m str with
  | zero => rfl
  | succ n ih => exact ih (store m str ch) (str + 1)

end KOS.ByteMemory
