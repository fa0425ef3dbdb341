import KOS.FirstFit
import KOS.PageBitmap

/-! `bitmap_acquire` is first fit, and which bits it reads and sets. -/

namespace KOS.BitmapFit
open KOS.PageBitmap KOS.FirstFit

variable {btmp btmp' : Bitmap} {cnt i : Nat}

theorem skipFull_full (bits : Nat → BitVec 8) (left byteIdx b : Nat) (low : byteIdx ≤ b)
    (high : b < skipFull bits left byteIdx) : bits b = 0xff := by
  induction left generalizing byteIdx with
  | zero =>
    rw [skipFull] at high
    omega
  | succ left ih =>
    rw [skipFull] at high
    split_ifs at high with full
    · by_cases first : b = byteIdx
      · rw [first]
        exact full
      · exact ih (byteIdx + 1) (by omega) high
    · omega

theorem skipUsed_used (byte : BitVec 8) (left bitIdx b : Nat) (small : bitIdx + left ≤ 8) (low : bitIdx ≤ b)
    (high : b < skipUsed byte left bitIdx) : byte.getLsbD b = true := by
  induction left generalizing bitIdx with
  | zero =>
    rw [skipUsed] at high
    omega
  | succ left ih =>
    rw [skipUsed, and_bit byte (by omega)] at high
    split_ifs at high with used
    · by_cases first : b = bitIdx
      · rw [first]
        exact used
      · exact ih (bitIdx + 1) (by omega) (by omega) high
    · omega

theorem check_full {b j : Nat} (full : btmp.bits b = 0xff) (byte : j / 8 = b) : bitmapCheck btmp j = true := by
  rw [bitmapCheck_eq, byte, full, show (0xff : BitVec 8) = BitVec.allOnes 8 from rfl, BitVec.getLsbD_allOnes]
  exact decide_eq_true (Nat.mod_lt j (by decide))

/-- Every bit before the first free one is set. -/
theorem firstFree_least (found : firstFree btmp = some i) {j : Nat} (below : j < i) : bitmapCheck btmp j = true := by
  unfold firstFree at found
  obtain ⟨-, -, stops⟩ := skipFull_stops btmp.bits btmp.len 0
  have before := skipFull_full btmp.bits btmp.len 0
  rw [Nat.zero_add] at stops
  generalize skipFull btmp.bits btmp.len 0 = byteIdx at stops before found
  simp only at found
  split_ifs at found with full
  cases found
  obtain ⟨k, small, clear⟩ := clear_bit (stops full)
  obtain ⟨inside, -⟩ := skipUsed_stops (btmp.bits byteIdx) 8 0 le_rfl ⟨k, Nat.zero_le k, by omega, clear⟩
  by_cases earlier : j / 8 < byteIdx
  · exact check_full (before (j / 8) (Nat.zero_le _) earlier) rfl
  · have byte : j / 8 = byteIdx := by omega
    rw [bitmapCheck_eq, byte]
    exact skipUsed_used _ 8 0 (j % 8) le_rfl (Nat.zero_le _) (by omega)

theorem firstFree_none (full : firstFree btmp = none) {j : Nat} (inside : j < 8 * btmp.len) :
    bitmapCheck btmp j = true := by
  unfold firstFree at full
  have before := skipFull_full btmp.bits btmp.len 0
  simp only at full
  split_ifs at full with last
  rw [last] at before
  exact check_full (before (j / 8) (Nat.zero_le _) (by omega)) rfl

theorem findRun_first {idx freeCnt : Nat} (left : Nat) (scanned : Scanned (bitmapCheck btmp) cnt idx freeCnt) :
    (∀ f, findRun btmp cnt left idx freeCnt = some f → First (bitmapCheck btmp) (idx + left) cnt f) ∧
      (findRun btmp cnt left idx freeCnt = none → ∀ i, ¬Run (bitmapCheck btmp) (idx + left) cnt i) := by
  induction left generalizing idx freeCnt with
  | zero => exact ⟨fun f found => absurd found (Option.some_ne_none f).symm, fun _ => scanned.none⟩
  | succ left ih =>
    rw [findRun, show idx + (left + 1) = idx + 1 + left by omega]
    cases used : bitmapCheck btmp idx with
    | true =>
      have short := scanned.short
      have more : 0 ≠ cnt := by omega
      simp only [if_true, if_neg more]
      exact ih (scanned.skip used)
    | false =>
      simp only [Bool.false_eq_true, if_false]
      by_cases full : freeCnt + 1 = cnt
      · rw [if_pos full]
        refine ⟨?_, fun none => absurd none (Option.some_ne_none _)⟩
        intro f found
        rw [← Option.some.inj found, full]
        exact scanned.found used full (by omega)
      · rw [if_neg full]
        exact ih (scanned.next used full)

/-- The start of the first run of `cnt` clear bits, or nothing if there is no such run. -/
theorem bitmapAcquire_first (positive : 0 < cnt) :
    (∀ i, (bitmapAcquire btmp cnt).1 = some i → First (bitmapCheck btmp) (8 * btmp.len) cnt i) ∧
      ((bitmapAcquire btmp cnt).1 = none → ∀ i, ¬Run (bitmapCheck btmp) (8 * btmp.len) cnt i) := by
  unfold bitmapAcquire
  cases free : firstFree btmp with
  | none =>
    refine ⟨fun i found => absurd found (Option.some_ne_none i).symm, ?_⟩
    intro _ i run
    have busy := firstFree_none free (show i < 8 * btmp.len by have := run.inside; omega)
    exact Bool.false_ne_true ((run.free i le_rfl (by omega)).symm.trans busy)
  | some f =>
    obtain ⟨inside, clear⟩ := firstFree_some free
    by_cases one : cnt = 1
    · simp only [one, if_true]
      refine ⟨?_, fun none => absurd none (Option.some_ne_none _)⟩
      intro i found
      rw [← Option.some.inj found]
      refine ⟨⟨inside, ?_⟩, ?_⟩
      · intro j low high
        rw [show j = f by omega]
        exact clear
      · intro i' run
        by_contra early
        have busy := firstFree_least free (show i' < f by omega)
        exact Bool.false_ne_true ((run.free i' le_rfl (by omega)).symm.trans busy)
    · have scanned : Scanned (bitmapCheck btmp) cnt (f + 1) 1 := by
        refine ⟨by omega, by omega, ?_, ?_⟩
        · intro j low high
          rw [show j = f by omega]
          exact clear
        · exact fun i before => ⟨i, le_rfl, by omega, firstFree_least free (by omega)⟩
      obtain ⟨first, none⟩ := findRun_first (btmp.len * 8 - (f + 1)) scanned
      rw [show f + 1 + (btmp.len * 8 - (f + 1)) = 8 * btmp.len by omega] at first none
      simp only [if_neg one]
      cases found : findRun btmp cnt (btmp.len * 8 - (f + 1)) (f + 1) 1 with
      | none => exact ⟨fun i found => absurd found (Option.some_ne_none i).symm, fun _ => none found⟩
      | some i =>
        refine ⟨?_, fun none => absurd none (Option.some_ne_none _)⟩
        intro i' same
        rw [← Option.some.inj same]
        exact first i found

/-! The bits that a call reads or sets. -/

/-- All of every byte up to the one that `skipFull` stops at, which may be the byte after the bitmap. -/
def skipFullBits (bits : Nat → BitVec 8) : (left byteIdx : Nat) → List Nat
  | 0, byteIdx => List.range' (byteIdx * 8) 8
  | left + 1, byteIdx =>
      List.range' (byteIdx * 8) 8 ++ if bits byteIdx = 0xff then skipFullBits bits left (byteIdx + 1) else []

def skipUsedBits (byte : BitVec 8) (byteIdx : Nat) : (left bitIdx : Nat) → List Nat
  | 0, _ => []
  | left + 1, bitIdx =>
      (byteIdx * 8 + bitIdx) ::
        if byte &&& (1#8 <<< bitIdx) != 0 then skipUsedBits byte byteIdx left (bitIdx + 1) else []

def findRunBits (btmp : Bitmap) (cnt : Nat) : (left idx freeCnt : Nat) → List Nat
  | 0, _, _ => []
  | left + 1, idx, freeCnt =>
      let freeCnt := if bitmapCheck btmp idx then 0 else freeCnt + 1
      idx :: if freeCnt = cnt then [] else findRunBits btmp cnt left (idx + 1) freeCnt

def bitmapAcquireBits (btmp : Bitmap) (cnt : Nat) : List Nat :=
  let byteIdx := skipFull btmp.bits btmp.len 0
  skipFullBits btmp.bits btmp.len 0 ++
    match firstFree btmp with
    | none => []
    | some freeIdx =>
        skipUsedBits (btmp.bits byteIdx) byteIdx 8 0 ++
          if cnt = 1 then [freeIdx]
          else
            findRunBits btmp cnt (btmp.len * 8 - (freeIdx + 1)) (freeIdx + 1) 1 ++
              match findRun btmp cnt (btmp.len * 8 - (freeIdx + 1)) (freeIdx + 1) 1 with
              | none => []
              | some freeIdx => List.range' freeIdx cnt

end KOS.BitmapFit
