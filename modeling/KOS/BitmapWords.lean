import KOS.BitmapFit

/-! `bitmap_acquire` and `bitmap_release` on 32-bit words: every index wraps, and -1 is the largest word. -/

namespace KOS.BitmapWords
open KOS.PageBitmap KOS.FirstFit KOS.BitmapFit

def word (value : Nat) : Nat := value % 2 ^ 32

def minusOne : Nat := 2 ^ 32 - 1

/-- A word as an `int`. -/
def signed (value : Nat) : Int := if value < 2 ^ 31 then value else (value : Int) - 2 ^ 32

/-- `while (idx < total)`, with `left` bits to go; -1 if it ends there. -/
def findRunWord (btmp : Bitmap) (cnt : Nat) : (left idx freeCnt : Nat) → Nat
  | 0, _, _ => minusOne
  | left + 1, idx, freeCnt =>
      let freeCnt := if bitmapCheck btmp idx then 0 else word (freeCnt + 1)
      if freeCnt = cnt then word (idx + (2 ^ 32 - freeCnt) + 1)
      else findRunWord btmp cnt left (word (idx + 1)) freeCnt

/-- `for (int i = 0; i < cnt; i++)`, with `left` bits to go. -/
def setRunWord (btmp : Bitmap) (freeIdx : Nat) : (left i : Nat) → Bitmap
  | 0, _ => btmp
  | left + 1, i => setRunWord (bitmapSet btmp (word (freeIdx + i)) true) freeIdx left (i + 1)

/-- The word that is returned, and the bitmap. -/
def bitmapAcquireWord (btmp : Bitmap) (cnt : Nat) : Nat × Bitmap :=
  let byteIdx := skipFull btmp.bits btmp.len 0
  if byteIdx = btmp.len then (minusOne, btmp)
  else
    let bitIdx := skipUsed (btmp.bits byteIdx) 8 0
    let freeIdx := word (byteIdx * 8 + bitIdx)
    if cnt = 1 then (freeIdx, bitmapSet btmp freeIdx true)
    else
      let total := word (btmp.len * 8)
      let idx := word (freeIdx + 1)
      let freeIdx := findRunWord btmp cnt (total - idx) idx 1
      if freeIdx ≠ minusOne then (freeIdx, setRunWord btmp freeIdx cnt 0) else (freeIdx, btmp)

/-- `while (n < cnt)`, with `left` bits to go. -/
def releaseRunWord (btmp : Bitmap) (btmpIdx : Nat) : (left n : Nat) → Option Bitmap
  | 0, _ => some btmp
  | left + 1, n =>
      if bitmapCheck btmp (word (btmpIdx + n)) then
        releaseRunWord (bitmapSet btmp (word (btmpIdx + n)) false) btmpIdx left (n + 1)
      else none

def bitmapReleaseWord (btmp : Bitmap) (btmpIdx cnt : Nat) : Option Bitmap := releaseRunWord btmp btmpIdx cnt 0

/-! The bytes of `bits` that the loops touch, in order. -/

/-- The condition reads a byte before it knows the bound: `&` evaluates both sides. -/
def skipFullBytes (bits : Nat → BitVec 8) : (left byteIdx : Nat) → List Nat
  | 0, byteIdx => [byteIdx]
  | left + 1, byteIdx => byteIdx :: if bits byteIdx = 0xff then skipFullBytes bits left (byteIdx + 1) else []

def skipUsedBytes (byte : BitVec 8) (byteIdx : Nat) : (left bitIdx : Nat) → List Nat
  | 0, _ => [byteIdx]
  | left + 1, bitIdx =>
      byteIdx :: if byte &&& (1#8 <<< bitIdx) != 0 then skipUsedBytes byte byteIdx left (bitIdx + 1) else []

def findRunBytes (btmp : Bitmap) (cnt : Nat) : (left idx freeCnt : Nat) → List Nat
  | 0, _, _ => []
  | left + 1, idx, freeCnt =>
      let freeCnt := if bitmapCheck btmp idx then 0 else word (freeCnt + 1)
      idx / 8 :: if freeCnt = cnt then [] else findRunBytes btmp cnt left (word (idx + 1)) freeCnt

def setRunBytes (freeIdx : Nat) : (left i : Nat) → List Nat
  | 0, _ => []
  | left + 1, i => word (freeIdx + i) / 8 :: setRunBytes freeIdx left (i + 1)

def bitmapAcquireBytes (btmp : Bitmap) (cnt : Nat) : List Nat :=
  let byteIdx := skipFull btmp.bits btmp.len 0
  skipFullBytes btmp.bits btmp.len 0 ++
    if byteIdx = btmp.len then []
    else
      let bitIdx := skipUsed (btmp.bits byteIdx) 8 0
      let freeIdx := word (byteIdx * 8 + bitIdx)
      skipUsedBytes (btmp.bits byteIdx) byteIdx 8 0 ++
        if cnt = 1 then [freeIdx / 8]
        else
          let total := word (btmp.len * 8)
          let idx := word (freeIdx + 1)
          let freeIdx := findRunWord btmp cnt (total - idx) idx 1
          findRunBytes btmp cnt (total - idx) idx 1 ++ if freeIdx ≠ minusOne then setRunBytes freeIdx cnt 0 else []

variable {btmp : Bitmap} {cnt left idx freeCnt : Nat}

/-! Up to 2^29 bytes no index wraps. -/

theorem word_small {value : Nat} (small : value < 2 ^ 32) : word value = value := Nat.mod_eq_of_lt small

theorem findRunWord_eq (inside : freeCnt ≤ idx) (small : idx + left < 2 ^ 32 - 1) :
    findRunWord btmp cnt left idx freeCnt = (findRun btmp cnt left idx freeCnt).getD minusOne := by
  induction left generalizing idx freeCnt with
  | zero => rfl
  | succ left ih =>
    rw [findRunWord, findRun, word_small (show freeCnt + 1 < 2 ^ 32 by omega),
      word_small (show idx + 1 < 2 ^ 32 by omega)]
    have inside' : (if bitmapCheck btmp idx then 0 else freeCnt + 1) ≤ idx + 1 := by
      split_ifs <;> omega
    generalize (if bitmapCheck btmp idx then 0 else freeCnt + 1) = freeCnt' at inside'
    by_cases full : freeCnt' = cnt
    · rw [if_pos full, if_pos full, Option.getD_some]
      unfold word
      omega
    · rw [if_neg full, if_neg full]
      exact ih inside' (by omega)

theorem setRunWord_eq {freeIdx i : Nat} (small : freeIdx + i + left ≤ 2 ^ 32) :
    setRunWord btmp freeIdx left i = setRun btmp (freeIdx + i) left := by
  induction left generalizing btmp i with
  | zero => rfl
  | succ left ih =>
    rw [setRunWord, setRun, word_small (show freeIdx + i < 2 ^ 32 by omega), Nat.add_assoc]
    exact ih (by omega)

theorem releaseRunWord_eq {btmpIdx n : Nat} (small : btmpIdx + n + left ≤ 2 ^ 32) :
    releaseRunWord btmp btmpIdx left n = bitmapRelease btmp (btmpIdx + n) left := by
  induction left generalizing btmp n with
  | zero => rfl
  | succ left ih =>
    rw [releaseRunWord, bitmapRelease, word_small (show btmpIdx + n < 2 ^ 32 by omega), Nat.add_assoc]
    rw [ih (by omega)]

theorem bitmapAcquireWord_eq (small : btmp.len < 2 ^ 29) (positive : 0 < cnt) :
    bitmapAcquireWord btmp cnt = ((bitmapAcquire btmp cnt).1.getD minusOne, (bitmapAcquire btmp cnt).2) := by
  cases free : firstFree btmp with
  | none =>
    have full : skipFull btmp.bits btmp.len 0 = btmp.len := by
      unfold firstFree at free
      simp only at free
      split_ifs at free with full
      exact full
    simp only [bitmapAcquireWord, bitmapAcquire, free, if_pos full]
    rfl
  | some freeIdx =>
    obtain ⟨inside, -⟩ := firstFree_some free
    have fits : ∀ i btmp', bitmapAcquire btmp cnt = (some i, btmp') → i + cnt ≤ 8 * btmp.len :=
      fun i btmp' ran => (bitmapAcquire_some positive ran).1
    simp only [bitmapAcquire, free] at fits ⊢
    unfold firstFree at free
    simp only at free
    split_ifs at free with full
    have start : word (skipFull btmp.bits btmp.len 0 * 8 + skipUsed (btmp.bits (skipFull btmp.bits btmp.len 0)) 8 0) =
        freeIdx := by
      rw [Option.some.inj free]
      exact word_small (by omega)
    simp only [bitmapAcquireWord, if_neg full, start]
    by_cases one : cnt = 1
    · rw [if_pos one, if_pos one]
      rfl
    · rw [if_neg one] at fits
      rw [if_neg one, if_neg one, word_small (show btmp.len * 8 < 2 ^ 32 by omega),
        word_small (show freeIdx + 1 < 2 ^ 32 by omega), findRunWord_eq (by omega) (by omega)]
      cases found : findRun btmp cnt (btmp.len * 8 - (freeIdx + 1)) (freeIdx + 1) 1 with
      | none => rfl
      | some i =>
        rw [found] at fits
        have below := fits i _ rfl
        have valid : i ≠ minusOne := by
          unfold minusOne
          omega
        rw [Option.getD_some, if_pos valid, setRunWord_eq (by omega)]
        rfl

/-! First fit, and back. -/

theorem signed_small {value : Nat} (small : value < 2 ^ 31) : signed value = value := if_pos small

theorem signed_minusOne : signed minusOne = -1 := rfl

theorem bitmap_ext {btmp' : Bitmap} (length : btmp'.len = btmp.len)
    (same : ∀ j, bitmapCheck btmp' j = bitmapCheck btmp j) : btmp' = btmp := by
  have bytes : btmp'.bits = btmp.bits := by
    funext b
    apply BitVec.eq_of_getLsbD_eq
    intro k small
    have bit := same (b * 8 + k)
    rw [bitmapCheck_eq, bitmapCheck_eq, show (b * 8 + k) / 8 = b by omega, show (b * 8 + k) % 8 = k by omega] at bit
    exact bit
  cases btmp
  cases btmp'
  rw [Bitmap.mk.injEq]
  exact ⟨bytes, length⟩

/-- Clearing a run that was free before it was set leaves the bitmap as it was. -/
theorem release_setRun {i : Nat} (free : ∀ j, i ≤ j → j < i + cnt → bitmapCheck btmp j = false) :
    bitmapRelease (setRun btmp i cnt) i cnt = some btmp := by
  have used : ∀ j, i ≤ j → j < i + cnt → bitmapCheck (setRun btmp i cnt) j = true := by
    intro j low high
    rw [bitmapCheck_setRun, decide_eq_true ⟨low, high⟩, Bool.true_or]
  obtain ⟨btmp', released⟩ := bitmapRelease_ready used
  obtain ⟨length, bits⟩ := bitmapRelease_some released
  rw [released]
  congr 1
  apply bitmap_ext (length.trans (setRun_len btmp i cnt))
  intro j
  rw [bits, bitmapCheck_setRun]
  by_cases member : i ≤ j ∧ j < i + cnt
  · rw [decide_eq_true member, free j member.1 member.2]
    rfl
  · rw [decide_eq_false member, Bool.false_or]
    rfl

/-- A call that finds the run at `i` sets it and nothing else, and `bitmap_release` takes it back. -/
structure Acquired (btmp btmp' : Bitmap) (cnt i : Nat) : Prop where
  length : btmp'.len = btmp.len
  bits : ∀ j, bitmapCheck btmp' j = (decide (i ≤ j ∧ j < i + cnt) || bitmapCheck btmp j)
  back : bitmapReleaseWord btmp' i cnt = some btmp

theorem bitmapAcquireWord_firstFit (btmp : Bitmap) (cnt : Nat) (small : btmp.len < 2 ^ 28) (positive : 1 ≤ cnt) :
    (∀ i, First (bitmapCheck btmp) (8 * btmp.len) cnt i →
      signed (bitmapAcquireWord btmp cnt).1 = i ∧ Acquired btmp (bitmapAcquireWord btmp cnt).2 cnt i) ∧
    ((∀ i, ¬Run (bitmapCheck btmp) (8 * btmp.len) cnt i) →
      signed (bitmapAcquireWord btmp cnt).1 = -1 ∧ (bitmapAcquireWord btmp cnt).2 = btmp) := by
  have search := @bitmapAcquire_first btmp cnt positive
  rw [bitmapAcquireWord_eq (by omega) positive]
  cases acquired : bitmapAcquire btmp cnt with
  | mk r btmp' =>
    rw [acquired] at search
    obtain ⟨first, none⟩ := search
    cases r with
    | none =>
      refine ⟨?_, fun _ => ⟨signed_minusOne, bitmapAcquire_none acquired⟩⟩
      intro i run
      exact absurd run.run (none rfl i)
    | some f =>
      obtain ⟨fits, free, rfl⟩ := bitmapAcquire_some positive acquired
      refine ⟨?_, fun nowhere => absurd (first f rfl).run (nowhere f)⟩
      intro i run
      obtain rfl := run.unique (first f rfl)
      have value : signed i = i := signed_small (by omega)
      refine ⟨value, setRun_len btmp i cnt, bitmapCheck_setRun btmp i cnt, ?_⟩
      unfold bitmapReleaseWord
      rw [releaseRunWord_eq (by omega)]
      exact release_setRun free

/-- Four bytes with thirteen bits taken, before bytes that belong to something else. -/
def sampleBitmap : Bitmap := bitmapInit (fun b => [0xff, 0x1f, 0x00, 0x00].getD b 0xff) 4

theorem sampleBitmap_first : First (bitmapCheck sampleBitmap) (8 * sampleBitmap.len) 19 13 := by
  refine ⟨⟨by decide, ?_⟩, ?_⟩
  · intro j low high
    have clear : ∀ k < 19, bitmapCheck sampleBitmap (13 + k) = false := by decide
    rw [show j = 13 + (j - 13) by omega]
    exact clear (j - 13) (by omega)
  · intro i run
    have fits : i + 19 ≤ 32 := run.inside
    have taken : bitmapCheck sampleBitmap 12 = true := by decide
    by_contra early
    exact Bool.false_ne_true ((run.free 12 (by omega) (by omega)).symm.trans taken)

theorem bitmapAcquireWord_nineteen :
    signed (bitmapAcquireWord sampleBitmap 19).1 = 13 ∧ Acquired sampleBitmap (bitmapAcquireWord sampleBitmap 19).2 19 13 :=
  (bitmapAcquireWord_firstFit sampleBitmap 19 (by decide) (by decide)).1 13 sampleBitmap_first

/-! Where the bytes are. -/

theorem mem_skipFullBytes {bits : Nat → BitVec 8} {byteIdx b : Nat} (member : b ∈ skipFullBytes bits left byteIdx) :
    b ≤ skipFull bits left byteIdx := by
  induction left generalizing byteIdx with
  | zero => exact (List.mem_singleton.mp member).le
  | succ left ih =>
    obtain ⟨later, -, -⟩ := skipFull_stops bits left (byteIdx + 1)
    rw [skipFullBytes, List.mem_cons] at member
    rw [skipFull]
    split_ifs at member ⊢ with full
    · rcases member with first | next
      · omega
      · exact ih next
    · rcases member with first | next
      · omega
      · cases next

/-- The byte that stops the loop has been read. -/
theorem skipFull_read (bits : Nat → BitVec 8) (left byteIdx : Nat) :
    skipFull bits left byteIdx ∈ skipFullBytes bits left byteIdx := by
  induction left generalizing byteIdx with
  | zero => exact List.mem_singleton_self _
  | succ left ih =>
    rw [skipFull, skipFullBytes]
    split_ifs
    · exact List.mem_cons_of_mem _ (ih (byteIdx + 1))
    · exact List.mem_cons_self

theorem mem_skipUsedBytes {byte : BitVec 8} {byteIdx bitIdx b : Nat}
    (member : b ∈ skipUsedBytes byte byteIdx left bitIdx) : b = byteIdx := by
  induction left generalizing bitIdx with
  | zero => exact List.mem_singleton.mp member
  | succ left ih =>
    rw [skipUsedBytes, List.mem_cons] at member
    rcases member with first | next
    · exact first
    · split_ifs at next
      · exact ih next
      · cases next

theorem mem_findRunBytes {b : Nat} (small : idx + left < 2 ^ 32) (member : b ∈ findRunBytes btmp cnt left idx freeCnt) :
    8 * b < idx + left := by
  induction left generalizing idx freeCnt with
  | zero => cases member
  | succ left ih =>
    rw [findRunBytes, word_small (show idx + 1 < 2 ^ 32 by omega), List.mem_cons] at member
    rcases member with first | next
    · omega
    · generalize (if bitmapCheck btmp idx then 0 else word (freeCnt + 1)) = freeCnt' at next
      split_ifs at next
      · cases next
      · have below := ih (by omega) next
        omega

theorem mem_setRunBytes {freeIdx i b : Nat} (member : b ∈ setRunBytes freeIdx left i) :
    ∃ k, i ≤ k ∧ k < i + left ∧ b = word (freeIdx + k) / 8 := by
  induction left generalizing i with
  | zero => cases member
  | succ left ih =>
    rw [setRunBytes, List.mem_cons] at member
    rcases member with first | next
    · exact ⟨i, le_rfl, by omega, first⟩
    · obtain ⟨k, low, high, byte⟩ := ih next
      exact ⟨k, by omega, by omega, byte⟩

theorem word_lt (value : Nat) : word value < 2 ^ 32 := Nat.mod_lt _ (by decide)

/-- A run that is found ends inside the bitmap, when the bits of the bitmap can be counted in a word. -/
theorem findRunWord_inside {start f : Nat} (small : btmp.len < 2 ^ 29) (low : start < 8 * btmp.len)
    (clear : bitmapCheck btmp start = false)
    (found : findRunWord btmp cnt (btmp.len * 8 - (start + 1)) (start + 1) 1 = f) (valid : f ≠ minusOne) :
    f + cnt ≤ 8 * btmp.len := by
  have single : ∀ j, start + 1 - 1 ≤ j → j < start + 1 → bitmapCheck btmp j = false := by
    intro j below above
    rw [show j = start by omega]
    exact clear
  rw [findRunWord_eq (by omega) (by omega)] at found
  cases run : findRun btmp cnt (btmp.len * 8 - (start + 1)) (start + 1) 1 with
  | none =>
    rw [run] at found
    exact absurd found.symm valid
  | some i =>
    rw [run, Option.getD_some] at found
    obtain ⟨fits, -⟩ := findRun_free single (by omega) run
    omega

/-- A search that does not find the bitmap full touches no byte behind it. -/
theorem bitmapAcquireBytes_inside {b : Nat} (free : skipFull btmp.bits btmp.len 0 < btmp.len)
    (member : b ∈ bitmapAcquireBytes btmp cnt) : b < btmp.len := by
  have notFull : ¬skipFull btmp.bits btmp.len 0 = btmp.len := by omega
  have first : firstFree btmp =
      some (skipFull btmp.bits btmp.len 0 * 8 + skipUsed (btmp.bits (skipFull btmp.bits btmp.len 0)) 8 0) := if_neg notFull
  obtain ⟨inside, clear⟩ := firstFree_some first
  simp only [bitmapAcquireBytes, if_neg notFull, List.mem_append] at member
  generalize skipFull btmp.bits btmp.len 0 * 8 + skipUsed (btmp.bits (skipFull btmp.bits btmp.len 0)) 8 0 = freeIdx
    at inside clear member
  rcases member with skipped | tested | later
  · have below := mem_skipFullBytes skipped
    omega
  · have below := mem_skipUsedBytes tested
    omega
  · by_cases wide : 2 ^ 29 ≤ btmp.len
    · -- The index of a byte has 29 bits.
      have narrow : b < 2 ^ 29 := by
        by_cases one : cnt = 1
        · have bound := word_lt freeIdx
          rw [if_pos one, List.mem_singleton] at later
          omega
        · rw [if_neg one] at later
          rcases List.mem_append.mp later with searched | set
          · have total := word_lt (btmp.len * 8)
            have start := word_lt (word freeIdx + 1)
            have below := mem_findRunBytes (by omega) searched
            omega
          · split_ifs at set
            · obtain ⟨k, -, -, byte⟩ := mem_setRunBytes set
              have bound := word_lt (findRunWord btmp cnt (word (btmp.len * 8) - word (word freeIdx + 1))
                (word (word freeIdx + 1)) 1 + k)
              omega
            · cases set
      omega
    · rw [word_small (show freeIdx < 2 ^ 32 by omega), word_small (show freeIdx + 1 < 2 ^ 32 by omega),
        word_small (show btmp.len * 8 < 2 ^ 32 by omega)] at later
      by_cases one : cnt = 1
      · rw [if_pos one, List.mem_singleton] at later
        omega
      · rw [if_neg one] at later
        rcases List.mem_append.mp later with searched | set
        · have below := mem_findRunBytes (by omega) searched
          omega
        · generalize found : findRunWord btmp cnt (btmp.len * 8 - (freeIdx + 1)) (freeIdx + 1) 1 = f at set
          split_ifs at set with valid
          · have fits := findRunWord_inside (by omega) inside clear found valid
            obtain ⟨k, -, high, byte⟩ := mem_setRunBytes set
            rw [word_small (show f + k < 2 ^ 32 by omega)] at byte
            omega
          · cases set

/-- Every byte that the search touches belongs to the bitmap if and only if some bit of it is clear. -/
theorem bitmapAcquireBytes_inside_iff (btmp : Bitmap) (cnt : Nat) :
    (∀ b ∈ bitmapAcquireBytes btmp cnt, b < btmp.len) ↔ ∃ j, j < 8 * btmp.len ∧ bitmapCheck btmp j = false := by
  obtain ⟨-, high, stops⟩ := skipFull_stops btmp.bits btmp.len 0
  have full := skipFull_full btmp.bits btmp.len 0
  constructor
  · intro inside
    have read : skipFull btmp.bits btmp.len 0 ∈ bitmapAcquireBytes btmp cnt :=
      List.mem_append_left _ (skipFull_read btmp.bits btmp.len 0)
    have below := inside _ read
    obtain ⟨k, small, clear⟩ := clear_bit (stops (by omega))
    generalize skipFull btmp.bits btmp.len 0 = byteIdx at below clear
    refine ⟨byteIdx * 8 + k, by omega, ?_⟩
    rw [bitmapCheck_eq, show (byteIdx * 8 + k) / 8 = byteIdx by omega, show (byteIdx * 8 + k) % 8 = k by omega]
    exact clear
  · intro free b member
    obtain ⟨j, inside, clear⟩ := free
    apply bitmapAcquireBytes_inside _ member
    by_contra last
    have used := check_full (full (j / 8) (Nat.zero_le _) (by omega)) rfl
    exact Bool.false_ne_true (clear.symm.trans used)

/-- A full bitmap of one byte: the byte behind it is read. -/
theorem fullBitmap_overread :
    ¬∀ b ∈ bitmapAcquireBytes (bitmapInit (fun _ => 0xff) 1) 1, b < (bitmapInit (fun _ => 0xff) 1).len := by
  intro inside
  have read : 1 ∈ bitmapAcquireBytes (bitmapInit (fun _ => 0xff) 1) 1 := by decide
  exact absurd (inside 1 read) (by decide)

end KOS.BitmapWords
