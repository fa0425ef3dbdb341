import Mathlib

/-! `bitmap.c`: the bit array behind the page pools. Only `len` bytes belong to a bitmap, but
its storage goes on after them. -/

namespace KOS.PageBitmap

structure Bitmap where
  bits : Nat → BitVec 8
  len : Nat

def bitmapInit (bits : Nat → BitVec 8) (len : Nat) : Bitmap := ⟨bits, len⟩

def bitmapReset (btmp : Bitmap) : Bitmap :=
  { btmp with bits := fun i => if i < btmp.len then 0 else btmp.bits i }

def bitmapSet (btmp : Bitmap) (btmpIdx : Nat) (value : Bool) : Bitmap :=
  let byteIdx := btmpIdx / 8
  let bitIdx := btmpIdx % 8
  let byte := btmp.bits byteIdx
  let byte := if value then byte ||| (1#8 <<< bitIdx) else byte &&& ~~~(1#8 <<< bitIdx)
  { btmp with bits := Function.update btmp.bits byteIdx byte }

def bitmapCheck (btmp : Bitmap) (btmpIdx : Nat) : Bool :=
  btmp.bits (btmpIdx / 8) &&& (1#8 <<< (btmpIdx % 8)) != 0

/-- `while ((0xff == bits[byte_idx]) & (byte_idx < len)) byte_idx++`, with `left` bytes to go. -/
def skipFull (bits : Nat → BitVec 8) : (left byteIdx : Nat) → Nat
  | 0, byteIdx => byteIdx
  | left + 1, byteIdx => if bits byteIdx = 0xff then skipFull bits left (byteIdx + 1) else byteIdx

/-- `while ((uint8_t)(1 << bit_idx) & byte) bit_idx++`. -/
def skipUsed (byte : BitVec 8) : (left bitIdx : Nat) → Nat
  | 0, bitIdx => bitIdx
  | left + 1, bitIdx =>
      if byte &&& (1#8 <<< bitIdx) != 0 then skipUsed byte left (bitIdx + 1) else bitIdx

/-- The search for `cnt` free bits in a row; `freeCnt` free bits end before `idx`. -/
def findRun (btmp : Bitmap) (cnt : Nat) : (left idx freeCnt : Nat) → Option Nat
  | 0, _, _ => none
  | left + 1, idx, freeCnt =>
      let freeCnt := if bitmapCheck btmp idx then 0 else freeCnt + 1
      -- `idx - free_cnt + 1`, which may pass through -1.
      if freeCnt = cnt then some (idx + 1 - freeCnt) else findRun btmp cnt left (idx + 1) freeCnt

def setRun (btmp : Bitmap) : (freeIdx cnt : Nat) → Bitmap
  | _, 0 => btmp
  | freeIdx, cnt + 1 => setRun (bitmapSet btmp freeIdx true) (freeIdx + 1) cnt

/-- The first free bit; `none` if the bitmap is full. -/
def firstFree (btmp : Bitmap) : Option Nat :=
  let byteIdx := skipFull btmp.bits btmp.len 0
  if byteIdx = btmp.len then none else some (byteIdx * 8 + skipUsed (btmp.bits byteIdx) 8 0)

/-- `none` stands for -1. -/
def bitmapAcquire (btmp : Bitmap) (cnt : Nat) : Option Nat × Bitmap :=
  match firstFree btmp with
  | none => (none, btmp)
  | some freeIdx =>
      if cnt = 1 then (some freeIdx, bitmapSet btmp freeIdx true)
      else match findRun btmp cnt (btmp.len * 8 - (freeIdx + 1)) (freeIdx + 1) 1 with
        | none => (none, btmp)
        | some freeIdx => (some freeIdx, setRun btmp freeIdx cnt)

/-- `none` if the assertion that every bit is set fails. -/
def bitmapRelease (btmp : Bitmap) : (btmpIdx cnt : Nat) → Option Bitmap
  | _, 0 => some btmp
  | btmpIdx, cnt + 1 =>
      if bitmapCheck btmp btmpIdx then bitmapRelease (bitmapSet btmp btmpIdx false) (btmpIdx + 1) cnt else none

/-! Single bits. -/

theorem and_bit (byte : BitVec 8) {k : Nat} (small : k < 8) :
    (byte &&& (1#8 <<< k) != 0) = byte.getLsbD k := by
  have mask : 1#8 <<< k = BitVec.twoPow 8 k := by
    rw [BitVec.twoPow_eq]
  rw [mask, BitVec.and_twoPow]
  cases set : byte.getLsbD k with
  | false => rfl
  | true =>
    have one : (BitVec.twoPow 8 k).getLsbD k = true := by
      rw [BitVec.getLsbD_twoPow]
      simp [small]
    have nonzero : BitVec.twoPow 8 k ≠ 0 := by
      intro zero
      rw [zero] at one
      simp at one
    simpa using nonzero

theorem bitmapCheck_eq (btmp : Bitmap) (i : Nat) :
    bitmapCheck btmp i = (btmp.bits (i / 8)).getLsbD (i % 8) :=
  and_bit _ (Nat.mod_lt i (by decide))

@[simp] theorem bitmapSet_len (btmp : Bitmap) (i : Nat) (value : Bool) : (bitmapSet btmp i value).len = btmp.len := rfl

theorem mask_bit {i k : Nat} (small : k < 8) : (1#8 <<< i).getLsbD k = decide (k = i) := by
  rw [← BitVec.twoPow_eq, BitVec.getLsbD_twoPow, Bool.and_eq_decide, decide_eq_decide]
  simp only [decide_eq_true_eq]
  omega

/-- Setting a bit changes that bit and no other. -/
theorem bitmapCheck_bitmapSet (btmp : Bitmap) (i j : Nat) (value : Bool) :
    bitmapCheck (bitmapSet btmp i value) j = if j = i then value else bitmapCheck btmp j := by
  rw [bitmapCheck_eq, bitmapCheck_eq]
  have small : j % 8 < 8 := Nat.mod_lt j (by decide)
  by_cases byte : j / 8 = i / 8
  · have bit : j % 8 = i % 8 ↔ j = i := by omega
    have changed : ((bitmapSet btmp i value).bits (j / 8)).getLsbD (j % 8) =
        if j % 8 = i % 8 then value else (btmp.bits (j / 8)).getLsbD (j % 8) := by
      rw [byte]
      simp only [bitmapSet, Function.update_self]
      cases value with
      | true =>
        rw [if_pos rfl, BitVec.getLsbD_or, mask_bit small]
        by_cases same : j % 8 = i % 8 <;> simp [same]
      | false =>
        rw [if_neg Bool.false_ne_true, BitVec.getLsbD_and, BitVec.getLsbD_not, mask_bit small]
        by_cases same : j % 8 = i % 8 <;> simp [same, small]
    rw [changed]
    simp only [bit]
  · have different : j ≠ i := by
      rintro rfl
      exact byte rfl
    rw [if_neg different]
    simp only [bitmapSet, Function.update_of_ne byte]

/-! Runs of bits. -/

@[simp] theorem setRun_len (btmp : Bitmap) (i cnt : Nat) : (setRun btmp i cnt).len = btmp.len := by
  induction cnt generalizing btmp i with
  | zero => rfl
  | succ cnt ih => rw [setRun, ih, bitmapSet_len]

theorem bitmapCheck_setRun (btmp : Bitmap) (i cnt j : Nat) :
    bitmapCheck (setRun btmp i cnt) j = (decide (i ≤ j ∧ j < i + cnt) || bitmapCheck btmp j) := by
  induction cnt generalizing btmp i with
  | zero =>
    have outside : ¬ (i ≤ j ∧ j < i + 0) := by omega
    rw [setRun, decide_eq_false outside, Bool.false_or]
  | succ cnt ih =>
    rw [setRun, ih, bitmapCheck_bitmapSet]
    by_cases first : j = i
    · simp [first]
    · rw [if_neg first]
      congr 1
      rw [decide_eq_decide]
      omega

/-- A run that the search finds is free, and lies below the bits still unread. -/
theorem findRun_free {btmp : Bitmap} {cnt left idx freeCnt found : Nat}
    (free : ∀ j, idx - freeCnt ≤ j → j < idx → bitmapCheck btmp j = false) (inside : freeCnt ≤ idx)
    (ran : findRun btmp cnt left idx freeCnt = some found) :
    found + cnt ≤ idx + left ∧ ∀ j, found ≤ j → j < found + cnt → bitmapCheck btmp j = false := by
  induction left generalizing idx freeCnt with
  | zero => cases ran
  | succ left ih =>
    rw [findRun] at ran
    have free' : ∀ j, idx + 1 - (if bitmapCheck btmp idx then 0 else freeCnt + 1) ≤ j → j < idx + 1 →
        bitmapCheck btmp j = false := by
      intro j low high
      split_ifs at low with used
      · omega
      · by_cases last : j = idx
        · rw [last]
          simpa using used
        · exact free j (by omega) (by omega)
    have inside' : (if bitmapCheck btmp idx then 0 else freeCnt + 1) ≤ idx + 1 := by
      split_ifs <;> omega
    generalize (if bitmapCheck btmp idx then 0 else freeCnt + 1) = freeCnt' at ran free' inside'
    split_ifs at ran with full
    · cases ran
      refine ⟨by omega, ?_⟩
      intro j low high
      exact free' j (by omega) (by omega)
    · obtain ⟨below, clear⟩ := ih free' inside' ran
      exact ⟨by omega, clear⟩

theorem skipFull_stops (bits : Nat → BitVec 8) (left byteIdx : Nat) :
    byteIdx ≤ skipFull bits left byteIdx ∧ skipFull bits left byteIdx ≤ byteIdx + left ∧
      (skipFull bits left byteIdx ≠ byteIdx + left → bits (skipFull bits left byteIdx) ≠ 0xff) := by
  induction left generalizing byteIdx with
  | zero => simp [skipFull]
  | succ left ih =>
    rw [skipFull]
    split_ifs with full
    · obtain ⟨low, high, stops⟩ := ih (byteIdx + 1)
      refine ⟨by omega, by omega, ?_⟩
      intro before
      exact stops (by omega)
    · exact ⟨le_rfl, by omega, fun _ => full⟩

theorem skipUsed_stops (byte : BitVec 8) (left bitIdx : Nat) (small : bitIdx + left ≤ 8)
    (free : ∃ k, bitIdx ≤ k ∧ k < bitIdx + left ∧ byte.getLsbD k = false) :
    skipUsed byte left bitIdx < bitIdx + left ∧ byte.getLsbD (skipUsed byte left bitIdx) = false := by
  induction left generalizing bitIdx with
  | zero =>
    obtain ⟨k, low, high, -⟩ := free
    omega
  | succ left ih =>
    rw [skipUsed, and_bit byte (by omega)]
    split_ifs with used
    · have later : ∃ k, bitIdx + 1 ≤ k ∧ k < bitIdx + 1 + left ∧ byte.getLsbD k = false := by
        obtain ⟨k, low, high, clear⟩ := free
        have other : k ≠ bitIdx := by
          rintro rfl
          rw [clear] at used
          cases used
        exact ⟨k, by omega, by omega, clear⟩
      obtain ⟨inside, clear⟩ := ih (bitIdx + 1) (by omega) later
      exact ⟨by omega, clear⟩
    · exact ⟨by omega, by simpa using used⟩

theorem clear_bit {byte : BitVec 8} (free : byte ≠ 0xff) : ∃ k, k < 8 ∧ byte.getLsbD k = false := by
  by_contra none
  push Not at none
  apply free
  apply BitVec.eq_of_getLsbD_eq
  intro k small
  rw [Bool.eq_true_of_not_eq_false (none k small)]
  symm
  rw [show (0xff : BitVec 8) = BitVec.allOnes 8 from rfl, BitVec.getLsbD_allOnes]
  simpa using small

theorem firstFree_some {btmp : Bitmap} {i : Nat} (found : firstFree btmp = some i) :
    i < 8 * btmp.len ∧ bitmapCheck btmp i = false := by
  obtain ⟨-, high, stops⟩ := skipFull_stops btmp.bits btmp.len 0
  unfold firstFree at found
  rw [Nat.zero_add] at high stops
  generalize skipFull btmp.bits btmp.len 0 = byteIdx at high stops found
  simp only at found
  split_ifs at found with full
  cases found
  obtain ⟨k, small, clear⟩ := clear_bit (stops full)
  obtain ⟨inside, free⟩ := skipUsed_stops (btmp.bits byteIdx) 8 0 le_rfl ⟨k, Nat.zero_le k, by omega, clear⟩
  generalize skipUsed (btmp.bits byteIdx) 8 0 = bitIdx at inside free
  refine ⟨by omega, ?_⟩
  rw [bitmapCheck_eq, show (byteIdx * 8 + bitIdx) / 8 = byteIdx by omega,
    show (byteIdx * 8 + bitIdx) % 8 = bitIdx by omega]
  exact free

/-- What a successful search hands out: a run inside the bitmap that was free. -/
theorem bitmapAcquire_some {btmp btmp' : Bitmap} {cnt i : Nat} (positive : 0 < cnt)
    (ran : bitmapAcquire btmp cnt = (some i, btmp')) :
    i + cnt ≤ 8 * btmp.len ∧ (∀ j, i ≤ j → j < i + cnt → bitmapCheck btmp j = false) ∧
      btmp' = setRun btmp i cnt := by
  unfold bitmapAcquire at ran
  cases first : firstFree btmp with
  | none =>
    rw [first] at ran
    cases ran
  | some freeIdx =>
    obtain ⟨inside, free⟩ := firstFree_some first
    rw [first] at ran
    simp only at ran
    split_ifs at ran with one
    · rw [Prod.mk.injEq, Option.some.injEq] at ran
      obtain ⟨rfl, rfl⟩ := ran
      subst one
      refine ⟨by omega, ?_, rfl⟩
      intro j low below
      rw [show j = freeIdx by omega]
      exact free
    · cases search : findRun btmp cnt (btmp.len * 8 - (freeIdx + 1)) (freeIdx + 1) 1 with
      | none =>
        rw [search] at ran
        cases ran
      | some found =>
        rw [search, Prod.mk.injEq, Option.some.injEq] at ran
        obtain ⟨rfl, rfl⟩ := ran
        have before : ∀ j, freeIdx + 1 - 1 ≤ j → j < freeIdx + 1 → bitmapCheck btmp j = false := by
          intro j low below
          rw [show j = freeIdx by omega]
          exact free
        obtain ⟨below, run⟩ := findRun_free before (by omega) search
        exact ⟨by omega, run, rfl⟩

theorem bitmapAcquire_none {btmp btmp' : Bitmap} {cnt : Nat} (ran : bitmapAcquire btmp cnt = (none, btmp')) :
    btmp' = btmp := by
  unfold bitmapAcquire at ran
  cases first : firstFree btmp with
  | none =>
    rw [first] at ran
    cases ran
    rfl
  | some freeIdx =>
    rw [first] at ran
    simp only at ran
    split_ifs at ran
    · cases ran
    · cases search : findRun btmp cnt (btmp.len * 8 - (freeIdx + 1)) (freeIdx + 1) 1 with
      | none =>
        rw [search] at ran
        cases ran
        rfl
      | some found =>
        rw [search] at ran
        cases ran

/-- What a release that passes its assertions does. -/
theorem bitmapRelease_some {btmp btmp' : Bitmap} {i cnt : Nat} (ran : bitmapRelease btmp i cnt = some btmp') :
    btmp'.len = btmp.len ∧
      ∀ j, bitmapCheck btmp' j = (!decide (i ≤ j ∧ j < i + cnt) && bitmapCheck btmp j) := by
  induction cnt generalizing btmp i with
  | zero =>
    cases ran
    refine ⟨rfl, ?_⟩
    intro j
    have outside : ¬ (i ≤ j ∧ j < i + 0) := by omega
    rw [decide_eq_false outside, Bool.not_false, Bool.true_and]
  | succ cnt ih =>
    rw [bitmapRelease] at ran
    split_ifs at ran
    obtain ⟨len, bits⟩ := ih ran
    refine ⟨len, ?_⟩
    intro j
    rw [bits, bitmapCheck_bitmapSet]
    by_cases first : j = i
    · simp [first]
    · rw [if_neg first]
      congr 2
      rw [decide_eq_decide]
      omega

theorem bitmapRelease_ready {btmp : Bitmap} {i cnt : Nat}
    (used : ∀ j, i ≤ j → j < i + cnt → bitmapCheck btmp j = true) : ∃ btmp', bitmapRelease btmp i cnt = some btmp' := by
  induction cnt generalizing btmp i with
  | zero => exact ⟨btmp, rfl⟩
  | succ cnt ih =>
    rw [bitmapRelease, if_pos (used i le_rfl (by omega))]
    apply ih
    intro j low high
    rw [bitmapCheck_bitmapSet, if_neg (by omega)]
    exact used j (by omega) (by omega)

end KOS.PageBitmap
