import KOS.Fs

/-! The block bitmap a freshly formatted partition carries, bit by bit. -/

namespace KOS.FsBitmap
open KOS.ByteMemory KOS.Ata KOS.Ide KOS.IdeWrite KOS.Fs

/-- Bit `b` of the byte at `x`. -/
def bitAt (m : Memory) (x b : Nat) : Bool := (load m x).toNat.testBit b

theorem mask_testBit (v : UInt8) (idx b : Nat) (small : idx < 8) (lane : b < 8) :
    (v &&& ~~~(1 <<< UInt8.ofNat idx)).toNat.testBit b = (v.toNat.testBit b && decide (b ≠ idx)) := by
  have mask : ∀ i < 8, ∀ j < 8,
      (~~~(1 <<< UInt8.ofNat i) : UInt8).toNat.testBit j = decide (j ≠ i) := by decide
  rw [UInt8.toNat_and, Nat.testBit_and, mask idx small b lane]

/-- The loop clears bits `idx` to `lastBit` of one byte and leaves every other bit alone. -/
theorem clearBits_bit (m : Memory) (byte idx lastBit x b : Nat) (small : lastBit < 8) (lane : b < 8) :
    bitAt (clearBits m byte idx lastBit) x b =
      (bitAt m x b && !decide (x % 2 ^ 32 = byte % 2 ^ 32 ∧ idx ≤ b ∧ b ≤ lastBit)) := by
  induction m, idx using clearBits.induct byte lastBit with
  | case1 m idx more ih =>
    rw [clearBits, if_pos more, ih]
    unfold bitAt
    rw [load_store]
    by_cases here : x % 2 ^ 32 = byte % 2 ^ 32
    · rw [if_pos here, mask_testBit _ _ _ (by omega) lane, load_congr m here, Bool.and_assoc,
        ← decide_not, ← decide_not, ← Bool.decide_and]
      congr 2
      exact propext (by omega)
    · have apart {p : Prop} : ¬(x % 2 ^ 32 = byte % 2 ^ 32 ∧ p) := fun both => here both.1
      rw [if_neg here, decide_eq_false apart, decide_eq_false apart]
  | case2 m idx done =>
    have none : ¬(x % 2 ^ 32 = byte % 2 ^ 32 ∧ idx ≤ b ∧ b ≤ lastBit) := by omega
    rw [clearBits, if_neg done, decide_eq_false none, Bool.not_false, Bool.and_true]

/-- `memset` inside a buffer, seen at offset `k`. -/
theorem load_memset (m : Memory) (buf o n k : Nat) (ch : UInt8) (range : o + n ≤ 2 ^ 31)
    (inside : k < 2 ^ 31) :
    load (memset m (buf + o) ch n) (buf + k) = if o ≤ k ∧ k < o + n then ch else load m (buf + k) := by
  rw [memset_eq_fill, load_fill_offset (o := o) m _ rfl (by omega)]
  have covered : distance k o < n ↔ o ≤ k ∧ k < o + n := by
    unfold distance
    omega
  simp only [covered]

/-- Inside the buffer, step 3 marks the root's block unless the boundary byte is byte 0, and the
bits after the boundary bit up to the end of the sector the boundary lies in. -/
theorem storeBlockBitmap_bit (ptn : IdePtn) (before : Memory) (buf i : Nat)
    (inside : i < 4096 * (superBlock ptn).blkBtmpSec) :
    bitAt (storeBlockBitmap (clearBuf ptn buf before) buf (superBlock ptn).blkCnt) (buf + i / 8) (i % 8) =
      decide ((superBlock ptn).blkCnt < i ∧ i / 4096 = (superBlock ptn).blkCnt / 4096 ∨
        i = 0 ∧ 8 ≤ (superBlock ptn).blkCnt) := by
  have sectors := blkBtmpSec_le ptn
  have count : (superBlock ptn).blkCnt < 2 ^ 20 := by
    have counted := blkCnt_eq ptn
    have bound := freeSectors_lt ptn
    omega
  have size : bufSize ptn = (superBlock ptn).blkBtmpSec * 512 := by
    unfold bufSize word SECTOR_SIZE
    omega
  have zeroed : load (clearBuf ptn buf before) (buf + i / 8) = 0 := by
    have cleared := load_memset before buf 0 (bufSize ptn) (i / 8) 0 (by omega) (by omega)
    rwa [Nat.add_zero, if_pos (by omega)] at cleared
  generalize (superBlock ptn).blkCnt = n at *
  generalize clearBuf ptn buf before = m at *
  unfold storeBlockBitmap SECTOR_SIZE
  rw [clearBits_bit _ _ _ _ _ _ (by omega) (by omega)]
  unfold bitAt
  rw [load_memset _ _ _ _ _ _ (by omega) (by omega), load_store, zeroed]
  have boundary : (buf + i / 8) % 2 ^ 32 = (buf + n / 8) % 2 ^ 32 ↔ i / 8 = n / 8 := by omega
  have first : (buf + i / 8) % 2 ^ 32 = buf % 2 ^ 32 ↔ i / 8 = 0 := by omega
  have ones : ∀ b < 8, (0xFF : UInt8).toNat.testBit b = true := by decide
  have one : ∀ b < 8, (0x01 : UInt8).toNat.testBit b = decide (b = 0) := by decide
  have lane : i % 8 < 8 := by omega
  simp only [boundary, first]
  by_cases tail : n / 8 ≤ i / 8 ∧ i / 8 < n / 8 + (512 - n / 8 % 512)
  · rw [if_pos tail, ones _ lane, Bool.true_and, ← decide_not, decide_eq_decide]
    omega
  · rw [if_neg tail]
    have apart : ¬(i / 8 = n / 8 ∧ 0 ≤ i % 8 ∧ i % 8 ≤ n % 8) := by omega
    rw [decide_eq_false apart, Bool.not_false, Bool.and_true]
    by_cases start : i / 8 = 0
    · rw [if_pos start, one _ lane, decide_eq_decide]
      omega
    · rw [if_neg start, UInt8.toNat_zero, Nat.zero_testBit, eq_comm, decide_eq_false_iff_not]
      omega

/-- Bit `i` of the block bitmap on the disk. -/
def blkBtmpBit (disk : Fin 2 → Nat → Sector) (ptn : IdePtn) (i : Nat) : Bool :=
  (disk ptn.hd.drive ((superBlock ptn).blkBtmpLba % 2 ^ 28 + i / 4096)
    ⟨i / 8 % 512, Nat.mod_lt _ (by decide)⟩).toNat.testBit (i % 8)

theorem fsFormat_bit (sysMalloc : Memory → Nat → Memory × Nat) (sysFree : Memory → Nat → Memory)
    (sb : Nat) (ptn : IdePtn) (m : Memory) (c : Channel) :
    ∃ m' c', fsFormat sysMalloc sysFree sb ptn m c = some (m', c') ∧
      ∀ i < (superBlock ptn).blkBtmpSec * 4096, (blkBtmpBit c'.disk ptn i = true ↔
        (superBlock ptn).blkCnt < i ∧ i / 4096 = (superBlock ptn).blkCnt / 4096 ∨
          i = 0 ∧ 8 ≤ (superBlock ptn).blkCnt) := by
  obtain ⟨m', c', before, buf, formatted, sectors⟩ := fsFormat_bitmap sysMalloc sysFree sb ptn m c
  refine ⟨m', c', formatted, fun i inside => ?_⟩
  have image := storeBlockBitmap_bit ptn before buf i (by omega)
  rw [← decide_eq_true_iff (p := _ ∨ _), ← image, blkBtmpBit, sectors _ (by omega), sourceSector, bitAt,
    show buf + 512 * (i / 4096) + i / 8 % 512 = buf + i / 8 by omega]

/-- What the bitmap of an empty file system has to say: block 0 is taken and so is every
block that does not exist. -/
def BitmapExact (disk : Fin 2 → Nat → Sector) (ptn : IdePtn) : Prop :=
  ∀ i < (superBlock ptn).blkBtmpSec * 4096,
    (blkBtmpBit disk ptn i = true ↔ i = 0 ∨ (superBlock ptn).blkCnt ≤ i)

/-- The boundary bit itself is always clear, so the bitmap is right only when it has no
boundary: when the blocks fill it to its last bit. -/
theorem fsFormat_bitmap_iff_full (sysMalloc : Memory → Nat → Memory × Nat)
    (sysFree : Memory → Nat → Memory) (sb : Nat) (ptn : IdePtn) (m : Memory) (c : Channel)
    (nonempty : 1 ≤ (superBlock ptn).blkCnt) :
    ∃ m' c', fsFormat sysMalloc sysFree sb ptn m c = some (m', c') ∧
      (BitmapExact c'.disk ptn ↔ (superBlock ptn).blkCnt = (superBlock ptn).blkBtmpSec * 4096) := by
  obtain ⟨m', c', formatted, bits⟩ := fsFormat_bit sysMalloc sysFree sb ptn m c
  refine ⟨m', c', formatted, ?_, ?_⟩
  · intro exact
    by_contra different
    have sized := blkBtmpSec_eq ptn
    have counted := blkCnt_eq ptn
    have below : (superBlock ptn).blkCnt < (superBlock ptn).blkBtmpSec * 4096 := by omega
    clear sized counted
    have marked := (bits _ below).mp ((exact _ below).mpr (.inr (Nat.le_refl _)))
    omega
  · intro full i inside
    rw [bits i inside]
    omega

theorem full_iff (ptn : IdePtn) (nonempty : 1 ≤ (superBlock ptn).blkCnt) :
    (superBlock ptn).blkCnt = (superBlock ptn).blkBtmpSec * 4096 ↔
      ∃ b r, 1 ≤ b ∧ b ≤ r ∧ r ≤ 7 ∧ (ptn.secCnt + (2 ^ 32 - 515)) % 2 ^ 23 = 32768 * b + r := by
  have sized := blkBtmpSec_eq ptn
  have counted := blkCnt_eq ptn
  have free : freeSectors ptn = (ptn.secCnt + (2 ^ 32 - 515)) % 2 ^ 23 := rfl
  rw [← free]
  constructor
  · intro full
    exact ⟨(superBlock ptn).blkBtmpSec, freeSectors ptn - 32768 * (superBlock ptn).blkBtmpSec,
      by omega, by omega, by omega, by omega⟩
  · rintro ⟨b, r, positive, least, most, size⟩
    have sectors : (superBlock ptn).blkBtmpSec = b := by omega
    rw [counted, sectors, size]
    omega

/-- `fs_format` writes a correct block bitmap only for partitions whose size leaves, modulo
2^23, between `b` and 7 sectors over `b` full bitmap sectors' worth of blocks. -/
theorem fsFormat_bitmap_iff (sysMalloc : Memory → Nat → Memory × Nat)
    (sysFree : Memory → Nat → Memory) (sb : Nat) (ptn : IdePtn) (m : Memory) (c : Channel)
    (nonempty : 1 ≤ (superBlock ptn).blkCnt) :
    ∃ m' c', fsFormat sysMalloc sysFree sb ptn m c = some (m', c') ∧
      (BitmapExact c'.disk ptn ↔
        ∃ b r, 1 ≤ b ∧ b ≤ r ∧ r ≤ 7 ∧ (ptn.secCnt + (2 ^ 32 - 515)) % 2 ^ 23 = 32768 * b + r) := by
  obtain ⟨m', c', formatted, full⟩ := fsFormat_bitmap_iff_full sysMalloc sysFree sb ptn m c nonempty
  exact ⟨m', c', formatted, full.trans (full_iff ptn nonempty)⟩

/-- 4096 blocks and one bitmap sector: the only way to have no boundary bit. -/
theorem fsFormat_bitmap_one_full_sector :
    ∃ m' c', fsFormat (fun m _ => (m, 0x100000)) (fun m _ => m) 0 ⟨⟨0⟩, 63, 33284⟩ (fun _ => 0)
        countingDrive = some (m', c') ∧
      BitmapExact c'.disk ⟨⟨0⟩, 63, 33284⟩ := by
  obtain ⟨m', c', formatted, exact⟩ := fsFormat_bitmap_iff (fun m _ => (m, 0x100000)) (fun m _ => m) 0
    ⟨⟨0⟩, 63, 33284⟩ (fun _ => 0) countingDrive (by decide)
  exact ⟨m', c', formatted, exact.mpr ⟨1, 1, by decide⟩⟩

/-- A partition of 1000 sectors has 60 blocks, and its bitmap offers a 61st. -/
theorem fsFormat_offers_missing_block :
    ∃ m' c', fsFormat (fun m _ => (m, 0x100000)) (fun m _ => m) 0 ⟨⟨0⟩, 63, 1000⟩ (fun _ => 0)
        countingDrive = some (m', c') ∧
      1 ≤ (superBlock ⟨⟨0⟩, 63, 1000⟩).blkCnt ∧ ¬ BitmapExact c'.disk ⟨⟨0⟩, 63, 1000⟩ := by
  obtain ⟨m', c', formatted, full⟩ := fsFormat_bitmap_iff_full (fun m _ => (m, 0x100000)) (fun m _ => m)
    0 ⟨⟨0⟩, 63, 1000⟩ (fun _ => 0) countingDrive (by decide)
  exact ⟨m', c', formatted, by decide, fun exact => absurd (full.mp exact) (by decide)⟩

end KOS.FsBitmap
