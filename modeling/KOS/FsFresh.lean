import KOS.FsBitmap
import KOS.FsLayout

/-! What a formatted partition still shows of its past. The inode table and the root's block are
written in their first sector only. -/

namespace KOS.FsFresh
open KOS.ByteMemory KOS.Ata KOS.Ide KOS.IdeWrite KOS.Fs KOS.FsBitmap KOS.FsLayout

variable {ptn : IdePtn}

def DIR_PER_BLK : Nat := BLOCK_SIZE / SIZEOF_DIRENT

/-- The sectors that describe the file system: both bitmaps, the inode table, the root's block. -/
def Shown (s : SuperBlock) (l : Nat) : Prop :=
  (s.inodeBtmpLba ≤ l ∧ l < s.inodeBtmpLba + s.inodeBtmpSec) ∨
    (s.inodeTableLba ≤ l ∧ l < s.inodeTableLba + s.inodeTableSec) ∨
    (s.blkBtmpLba ≤ l ∧ l < s.blkBtmpLba + s.blkBtmpSec) ∨ (s.blkLba ≤ l ∧ l < s.blkLba + 8)

/-- Byte `j` of inode `i`. -/
def inodeByte (disk : Fin 2 → Nat → Sector) (ptn : IdePtn) (i j : Nat) : UInt8 :=
  Channel.byteOf disk ptn.hd.drive (superBlock ptn).inodeTableLba
    (SECTOR_SIZE * (i / INODE_PER_SEC) + SIZEOF_INODE_HD * (i % INODE_PER_SEC) + j)

/-- Byte `j` of entry `k` of the root directory. -/
def entryByte (disk : Fin 2 → Nat → Sector) (ptn : IdePtn) (k j : Nat) : UInt8 :=
  Channel.byteOf disk ptn.hd.drive (superBlock ptn).blkLba (SIZEOF_DIRENT * k + j)

/-- No inode but the root's, no entry but "." and "..". -/
structure Blank (ptn : IdePtn) (disk : Fin 2 → Nat → Sector) : Prop where
  inodes : ∀ i, 1 ≤ i → i < INODE_CNT_MAX → ∀ j < SIZEOF_INODE_HD, inodeByte disk ptn i j = 0
  entries : ∀ k, 2 ≤ k → k < DIR_PER_BLK → ∀ j < SIZEOF_DIRENT, entryByte disk ptn k j = 0

/-- Two formatted disks look alike, and empty. -/
structure Fresh (ptn : IdePtn) (disk1 disk2 : Fin 2 → Nat → Sector) : Prop where
  same : ∀ l, Shown (superBlock ptn) l → disk1 ptn.hd.drive l = disk2 ptn.hd.drive l
  blank1 : Blank ptn disk1
  blank2 : Blank ptn disk2

/-- The sectors of the table and of the root's block behind the first. -/
def Skipped (s : SuperBlock) (l : Nat) : Prop :=
  (s.inodeTableLba < l ∧ l < s.inodeTableLba + s.inodeTableSec) ∨ (s.blkLba < l ∧ l < s.blkLba + 8)

/-- What has to be true of the disks beforehand. -/
structure CleanBefore (ptn : IdePtn) (disk1 disk2 : Fin 2 → Nat → Sector) : Prop where
  same : ∀ l, Skipped (superBlock ptn) l → disk1 ptn.hd.drive l = disk2 ptn.hd.drive l
  inodes : ∀ i, INODE_PER_SEC ≤ i → i < INODE_CNT_MAX → ∀ j < SIZEOF_INODE_HD, inodeByte disk1 ptn i j = 0
  entries : ∀ k < DIR_PER_BLK, ∀ j < SIZEOF_DIRENT, SECTOR_SIZE ≤ SIZEOF_DIRENT * k + j →
    entryByte disk1 ptn k j = 0

/-! The buffer as each write finds it. -/

theorem bufSize_eq (ptn : IdePtn) : bufSize ptn = (superBlock ptn).blkBtmpSec * 512 := by
  have sectors := blkBtmpSec_le ptn
  unfold bufSize word SECTOR_SIZE
  omega

theorem clearBuf_zero (m : Memory) (buf : Nat) {o : Nat} (inside : o < bufSize ptn) :
    load (clearBuf ptn buf m) (buf + o) = 0 := by
  have sectors := blkBtmpSec_le ptn
  have size := bufSize_eq ptn
  have cleared := load_memset m buf 0 (bufSize ptn) o 0 (by omega) (by omega)
  rwa [Nat.add_zero, if_pos (by omega)] at cleared

theorem storeRootInode_other (m : Memory) (root : Nat) (s : SuperBlock) {o : Nat} (behind : 12 ≤ o)
    (near : o < 2 ^ 31) : load (storeRootInode m root s) (root + o) = load m (root + o) := by
  unfold storeRootInode
  dsimp only
  rw [load_store32_other _ _ (by intro i inside; omega), load_store32_other _ _ (by intro i inside; omega),
    load_store32_other _ _ (by intro i inside; omega)]

theorem storeDots_other (m : Memory) (dir : Nat) {o : Nat} (behind : 48 ≤ o) (near : o < 2 ^ 31) :
    load (storeDots m dir) (dir + o) = load m (dir + o) := by
  unfold storeDots SIZEOF_DIRENT
  dsimp only
  rw [load_store32_other _ _ (by intro i inside; omega), load_store32_other _ _ (by intro i inside; omega),
    load_store_other _ (by omega), load_store_other _ (by omega),
    load_store32_other _ _ (by intro i inside; omega), load_store32_other _ _ (by intro i inside; omega),
    load_store_other _ (by omega)]

theorem clearBits_other (m : Memory) {byte lastBit x : Nat} (idx : Nat) (apart : x % 2 ^ 32 ≠ byte % 2 ^ 32) :
    load (clearBits m byte idx lastBit) x = load m x := by
  induction m, idx using clearBits.induct byte lastBit with
  | case1 m idx more ih =>
    rw [clearBits, if_pos more, ih]
    exact load_store_other _ apart
  | case2 m idx done => rw [clearBits, if_neg done]

/-- Without a bitmap sector the buffer has no bytes of its own, and the fill of step 3 stays in what
is written as the root's block. -/
theorem storeBlockBitmap_unclear (m : Memory) (buf : Nat) :
    load (storeBlockBitmap m buf 0) (buf + 48) = 0xFF := by
  unfold storeBlockBitmap
  dsimp only
  rw [clearBits_other _ _ (by omega), load_memset _ _ _ _ _ _ (by unfold SECTOR_SIZE; omega) (by decide),
    if_pos (by unfold SECTOR_SIZE; omega)]

/-! One run. -/

/-- The sectors a run leaves, from the images `m1` to `m4` of the buffer at `buf`. -/
structure Formatted (ptn : IdePtn) (buf : Nat) (m1 m2 m3 m4 : Memory) (disk disk' : Fin 2 → Nat → Sector) : Prop where
  inodeBtmp : disk' ptn.hd.drive (ptn.startLba + 2) = sourceSector m1 buf 0
  inodeTable : disk' ptn.hd.drive (ptn.startLba + 3) = sourceSector m2 buf 0
  blkBtmp : ∀ i < (superBlock ptn).blkBtmpSec, disk' ptn.hd.drive (ptn.startLba + 515 + i) = sourceSector m3 buf i
  root : disk' ptn.hd.drive (ptn.startLba + 515 + (superBlock ptn).blkBtmpSec) = sourceSector m4 buf 0
  skipped : ∀ l, Skipped (superBlock ptn) l → disk' ptn.hd.drive l = disk ptn.hd.drive l

theorem formatted_of_writes {buf : Nat} {m0 m1 m2 m3 m4 : Memory} {sb : Nat} (disk : Fin 2 → Nat → Sector)
    (low : ptn.startLba ≤ 2 ^ 28) :
    Formatted ptn buf m1 m2 m3 m4 disk (written (written (written (written (written disk
        m0 sb ptn.hd.drive (ptn.startLba + 1) 1)
        m1 buf ptn.hd.drive (ptn.startLba + 2) 1)
        m2 buf ptn.hd.drive (ptn.startLba + 3) 1)
        m3 buf ptn.hd.drive (ptn.startLba + 515) (superBlock ptn).blkBtmpSec)
        m4 buf ptn.hd.drive (ptn.startLba + 515 + (superBlock ptn).blkBtmpSec) 1) := by
  constructor
  · rw [written_outside (by omega), written_outside (by omega), written_outside (by omega),
      written_inside (by omega) (by omega), Nat.sub_self]
  · rw [written_outside (by omega), written_outside (by omega), written_inside (by omega) (by omega), Nat.sub_self]
  · intro i inside
    rw [written_outside (by omega), written_inside (by omega) (by omega), Nat.add_sub_cancel_left]
  · rw [written_inside (by omega) (by omega), Nat.sub_self]
  · intro l skipped
    unfold Skipped at skipped
    rw [inodeTableLba_eq low, inodeTableSec_eq, blkLba_at low] at skipped
    rw [written_outside (by omega), written_outside (by omega), written_outside (by omega),
      written_outside (by omega), written_outside (by omega)]

/-- Every run on the same memory takes the same images to the disk. -/
theorem fsFormat_formatted (sysMalloc : Memory → Nat → Memory × Nat) (sysFree : Memory → Nat → Memory)
    (sb : Nat) (ptn : IdePtn) (m : Memory) (large : 516 ≤ ptn.secCnt) (fits : ptn.startLba + ptn.secCnt ≤ 2 ^ 28) :
    ∃ buf before1 before2 before3 before4, ∀ c, ∃ m' c', fsFormat sysMalloc sysFree sb ptn m c = some (m', c') ∧
      Formatted ptn buf (store (clearBuf ptn buf before1) buf 0x01)
        (storeRootInode (clearBuf ptn buf before2) buf (superBlock ptn))
        (storeBlockBitmap (clearBuf ptn buf before3) buf (superBlock ptn).blkCnt)
        (storeDots (clearBuf ptn buf before4) buf) c.disk c'.disk ∧
      before4 = storeBlockBitmap (clearBuf ptn buf before3) buf (superBlock ptn).blkCnt := by
  obtain ⟨m0, image0⟩ : ∃ m0, m0 = storeSuperBlock m sb (superBlock ptn) := ⟨_, rfl⟩
  obtain ⟨buf, allocated⟩ : ∃ buf, buf = (sysMalloc m0 (bufSize ptn)).2 := ⟨_, rfl⟩
  obtain ⟨m1, image1⟩ : ∃ m1, m1 = store (clearBuf ptn buf (sysMalloc m0 (bufSize ptn)).1) buf 0x01 := ⟨_, rfl⟩
  obtain ⟨m2, image2⟩ : ∃ m2, m2 = storeRootInode (clearBuf ptn buf m1) buf (superBlock ptn) := ⟨_, rfl⟩
  obtain ⟨m3, image3⟩ : ∃ m3, m3 = storeBlockBitmap (clearBuf ptn buf m2) buf (superBlock ptn).blkCnt := ⟨_, rfl⟩
  refine ⟨buf, (sysMalloc m0 (bufSize ptn)).1, m1, m2, m3, ?_⟩
  intro c
  obtain ⟨buf', m0', m1', m2', m3', m4', c', image0', allocated', image1', image2', image3', image4', formatted,
    disk⟩ := fsFormat_places sysMalloc sysFree sb ptn m c large fits
  obtain rfl : m0' = m0 := image0'.trans image0.symm
  obtain rfl : buf' = buf := allocated'.trans allocated.symm
  obtain rfl : m1' = m1 := image1'.trans image1.symm
  obtain rfl : m2' = m2 := image2'.trans image2.symm
  obtain rfl : m3' = m3 := image3'.trans image3.symm
  refine ⟨_, c', formatted, ?_, image3⟩
  rw [disk, image4', ← image1, ← image2, ← image3]
  exact formatted_of_writes c.disk (by omega)

/-! Where the inodes and the entries lie. -/

theorem inodePerSec_eq : INODE_PER_SEC = 8 := by decide

theorem byteOf_congr {disk disk' : Fin 2 → Nat → Sector} {d : Fin 2} {lba k : Nat}
    (same : disk' d (lba + k / 512) = disk d (lba + k / 512)) :
    Channel.byteOf disk' d lba k = Channel.byteOf disk d lba k := by
  unfold Channel.byteOf
  rw [same]

theorem byteOf_source {disk : Fin 2 → Nat → Sector} {d : Fin 2} {lba k src : Nat} {m : Memory}
    (sector : disk d lba = sourceSector m src 0) (first : k < 512) :
    Channel.byteOf disk d lba k = load m (src + k) := by
  unfold Channel.byteOf
  rw [Nat.div_eq_of_lt first, Nat.add_zero, sector]
  unfold sourceSector
  rw [Nat.mul_zero, Nat.add_zero]
  exact congrArg (fun x => load m (src + x)) (Nat.mod_eq_of_lt first)

theorem inode_sector {i j : Nat} (inside : j < SIZEOF_INODE_HD) :
    (SECTOR_SIZE * (i / INODE_PER_SEC) + SIZEOF_INODE_HD * (i % INODE_PER_SEC) + j) / 512 = i / 8 := by
  rw [inodePerSec_eq]
  unfold SECTOR_SIZE SIZEOF_INODE_HD at *
  omega

theorem inode_skipped {i : Nat} (behind : INODE_PER_SEC ≤ i) (inside : i < INODE_CNT_MAX) :
    Skipped (superBlock ptn) ((superBlock ptn).inodeTableLba + i / 8) := by
  left
  rw [inodeTableSec_eq]
  rw [inodePerSec_eq] at behind
  unfold INODE_CNT_MAX SECTOR_SIZE at inside
  omega

theorem entry_skipped {k j : Nat} (inside : k < DIR_PER_BLK) (lane : j < SIZEOF_DIRENT)
    (behind : SECTOR_SIZE ≤ SIZEOF_DIRENT * k + j) :
    Skipped (superBlock ptn) ((superBlock ptn).blkLba + (SIZEOF_DIRENT * k + j) / 512) := by
  right
  unfold DIR_PER_BLK BLOCK_SIZE SIZEOF_DIRENT SECTOR_SIZE at *
  omega

/-- A run changes no inode behind the first sector of the table. -/
theorem Formatted.inode_kept {buf : Nat} {m1 m2 m3 m4 : Memory} {disk disk' : Fin 2 → Nat → Sector}
    (formatted : Formatted ptn buf m1 m2 m3 m4 disk disk') {i j : Nat} (behind : INODE_PER_SEC ≤ i)
    (inside : i < INODE_CNT_MAX) (lane : j < SIZEOF_INODE_HD) : inodeByte disk' ptn i j = inodeByte disk ptn i j := by
  apply byteOf_congr
  rw [inode_sector lane]
  exact formatted.skipped _ (inode_skipped behind inside)

theorem Formatted.entry_kept {buf : Nat} {m1 m2 m3 m4 : Memory} {disk disk' : Fin 2 → Nat → Sector}
    (formatted : Formatted ptn buf m1 m2 m3 m4 disk disk') {k j : Nat} (inside : k < DIR_PER_BLK)
    (lane : j < SIZEOF_DIRENT) (behind : SECTOR_SIZE ≤ SIZEOF_DIRENT * k + j) :
    entryByte disk' ptn k j = entryByte disk ptn k j := by
  apply byteOf_congr
  exact formatted.skipped _ (entry_skipped inside lane behind)

section Images

variable {buf : Nat} {before1 before2 before3 before4 : Memory} {disk disk' : Fin 2 → Nat → Sector}
variable (formatted : Formatted ptn buf (store (clearBuf ptn buf before1) buf 0x01)
  (storeRootInode (clearBuf ptn buf before2) buf (superBlock ptn))
  (storeBlockBitmap (clearBuf ptn buf before3) buf (superBlock ptn).blkCnt)
  (storeDots (clearBuf ptn buf before4) buf) disk disk') (low : ptn.startLba ≤ 2 ^ 28)
include formatted low

/-- The first sector of the table holds the root's inode and nothing else. -/
theorem Formatted.inode_first (whole : 512 ≤ bufSize ptn) {i j : Nat} (behind : 1 ≤ i) (inside : i < INODE_PER_SEC)
    (lane : j < SIZEOF_INODE_HD) : inodeByte disk' ptn i j = 0 := by
  have table := formatted.inodeTable
  rw [← inodeTableLba_eq low] at table
  rw [inodePerSec_eq] at inside
  unfold inodeByte
  have offset : SECTOR_SIZE * (i / INODE_PER_SEC) + SIZEOF_INODE_HD * (i % INODE_PER_SEC) + j = 60 * i + j := by
    rw [inodePerSec_eq]
    unfold SECTOR_SIZE SIZEOF_INODE_HD
    omega
  unfold SIZEOF_INODE_HD at lane
  rw [offset, byteOf_source table (by omega), storeRootInode_other _ _ _ (by omega) (by omega)]
  exact clearBuf_zero _ _ (by omega)

/-- So does the first sector of the root's block with "." and "..". -/
theorem Formatted.entry_first {k j : Nat} (behind : 2 ≤ k) (first : SIZEOF_DIRENT * k + j < SECTOR_SIZE) :
    entryByte disk' ptn k j = load (clearBuf ptn buf before4) (buf + (SIZEOF_DIRENT * k + j)) := by
  have root := formatted.root
  rw [← blkLba_at low] at root
  unfold SIZEOF_DIRENT SECTOR_SIZE at *
  unfold entryByte SIZEOF_DIRENT
  rw [byteOf_source root first, storeDots_other _ _ (by omega) (by omega)]

/-- With a buffer of its own size, what a formatted disk still shows is what it held before. -/
theorem Formatted.blank_iff (whole : 512 ≤ bufSize ptn) :
    Blank ptn disk' ↔
      (∀ i, INODE_PER_SEC ≤ i → i < INODE_CNT_MAX → ∀ j < SIZEOF_INODE_HD, inodeByte disk ptn i j = 0) ∧
        ∀ k < DIR_PER_BLK, ∀ j < SIZEOF_DIRENT, SECTOR_SIZE ≤ SIZEOF_DIRENT * k + j → entryByte disk ptn k j = 0 := by
  constructor
  · intro blank
    constructor
    · intro i behind inside j lane
      rw [← formatted.inode_kept behind inside lane]
      exact blank.inodes i (by rw [inodePerSec_eq] at behind; omega) inside j lane
    · intro k inside j lane behind
      rw [← formatted.entry_kept inside lane behind]
      exact blank.entries k (by unfold SECTOR_SIZE SIZEOF_DIRENT at *; omega) inside j lane
  · intro before
    constructor
    · intro i positive inside j lane
      by_cases behind : INODE_PER_SEC ≤ i
      · rw [formatted.inode_kept behind inside lane]
        exact before.1 i behind inside j lane
      · exact formatted.inode_first low whole positive (by omega) lane
    · intro k positive inside j lane
      by_cases behind : SECTOR_SIZE ≤ SIZEOF_DIRENT * k + j
      · rw [formatted.entry_kept inside lane behind]
        exact before.2 k inside j lane behind
      · rw [formatted.entry_first low positive (by omega)]
        exact clearBuf_zero _ _ (by unfold SECTOR_SIZE at behind; omega)

end Images

/-- Two runs differ only in what neither of them writes. -/
theorem Formatted.same_iff {buf : Nat} {m1 m2 m3 m4 : Memory} {disk1 disk1' disk2 disk2' : Fin 2 → Nat → Sector}
    (first : Formatted ptn buf m1 m2 m3 m4 disk1 disk1') (second : Formatted ptn buf m1 m2 m3 m4 disk2 disk2')
    (low : ptn.startLba ≤ 2 ^ 28) :
    (∀ l, Shown (superBlock ptn) l → disk1' ptn.hd.drive l = disk2' ptn.hd.drive l) ↔
      ∀ l, Skipped (superBlock ptn) l → disk1 ptn.hd.drive l = disk2 ptn.hd.drive l := by
  constructor
  · intro same l skipped
    rw [← first.skipped l skipped, ← second.skipped l skipped]
    apply same
    rcases skipped with table | root
    · exact .inr (.inl ⟨by omega, by omega⟩)
    · exact .inr (.inr (.inr ⟨by omega, by omega⟩))
  · intro before l shown
    by_cases skipped : Skipped (superBlock ptn) l
    · rw [first.skipped l skipped, second.skipped l skipped]
      exact before l skipped
    · have place : l = ptn.startLba + 2 ∨ l = ptn.startLba + 3 ∨
          (∃ i < (superBlock ptn).blkBtmpSec, l = ptn.startLba + 515 + i) ∨
            l = ptn.startLba + 515 + (superBlock ptn).blkBtmpSec := by
        unfold Skipped at skipped
        unfold Shown at shown
        rw [inodeTableLba_eq low, inodeTableSec_eq, blkLba_at low] at *
        rw [inodeBtmpLba_eq low, inodeBtmpSec_eq, blkBtmpLba_eq low] at shown
        by_cases bitmap : ptn.startLba + 515 ≤ l ∧ l < ptn.startLba + 515 + (superBlock ptn).blkBtmpSec
        · exact .inr (.inr (.inl ⟨l - (ptn.startLba + 515), by omega, by omega⟩))
        · omega
      rcases place with rfl | rfl | ⟨i, inside, rfl⟩ | rfl
      · rw [first.inodeBtmp, second.inodeBtmp]
      · rw [first.inodeTable, second.inodeTable]
      · rw [first.blkBtmp i inside, second.blkBtmp i inside]
      · rw [first.root, second.root]

/-- A formatted disk shows nothing of the past exactly when the bitmap has a sector and the sectors the
formatter skips showed nothing beforehand. -/
theorem fsFormat_fresh_iff (sysMalloc : Memory → Nat → Memory × Nat) (sysFree : Memory → Nat → Memory)
    (sb : Nat) (ptn : IdePtn) (m : Memory) (c1 c2 : Channel) (large : 524 ≤ ptn.secCnt)
    (fits : ptn.startLba + ptn.secCnt ≤ 2 ^ 28) :
    ∃ m1 c1' m2 c2', fsFormat sysMalloc sysFree sb ptn m c1 = some (m1, c1') ∧
      fsFormat sysMalloc sysFree sb ptn m c2 = some (m2, c2') ∧
      (Fresh ptn c1'.disk c2'.disk ↔ 8 ≤ (ptn.secCnt - 515) % 2 ^ 23 ∧ CleanBefore ptn c1.disk c2.disk) := by
  obtain ⟨buf, before1, before2, before3, before4, run⟩ :=
    fsFormat_formatted sysMalloc sysFree sb ptn m (by omega) fits
  obtain ⟨m1, c1', ran1, formatted1, last⟩ := run c1
  obtain ⟨m2, c2', ran2, formatted2, -⟩ := run c2
  have low : ptn.startLba ≤ 2 ^ 28 := by omega
  have free := freeSectors_eq ptn (by omega) (by omega)
  have sized := blkBtmpSec_eq ptn
  have size := bufSize_eq ptn
  have same := formatted1.same_iff formatted2 low
  refine ⟨m1, c1', m2, c2', ran1, ran2, ?_⟩
  rw [← free]
  by_cases clear : 8 ≤ freeSectors ptn
  · have whole : 512 ≤ bufSize ptn := by omega
    have blank1 := formatted1.blank_iff low whole
    have blank2 := formatted2.blank_iff low whole
    constructor
    · intro fresh
      have before := blank1.mp fresh.blank1
      exact ⟨clear, same.mp fresh.same, before.1, before.2⟩
    · intro clean
      have before := clean.2
      have blank : Blank ptn c1'.disk := blank1.mpr ⟨before.inodes, before.entries⟩
      -- the second disk agrees with the first where neither is written
      have blank' : Blank ptn c2'.disk := by
        apply blank2.mpr
        constructor
        · intro i behind inside j lane
          rw [← before.inodes i behind inside j lane]
          apply byteOf_congr
          rw [inode_sector lane]
          exact (before.same _ (inode_skipped behind inside)).symm
        · intro k inside j lane behind
          rw [← before.entries k inside j lane behind]
          apply byteOf_congr
          exact (before.same _ (entry_skipped inside lane behind)).symm
      exact ⟨same.mpr before.same, blank, blank'⟩
  · have blocks := blkCnt_eq ptn
    have none : (superBlock ptn).blkCnt = 0 := by omega
    have empty : bufSize ptn = 0 := by omega
    have stale : entryByte c1'.disk ptn 2 0 = 0xFF := by
      rw [formatted1.entry_first low (Nat.le_refl 2) (by decide), clearBuf, empty, memset, last, none]
      exact storeBlockBitmap_unclear _ buf
    constructor
    · intro fresh
      have zero := fresh.blank1.entries 2 (by decide) (by decide) 0 (by decide)
      exact absurd (stale.symm.trans zero) (by decide)
    · intro clean
      exact absurd clean.1 clear

theorem fsFormat_fresh_1000 :
    ∃ m1 c1' m2 c2', fsFormat (fun m _ => (m, 0x100000)) (fun m _ => m) 0 ⟨⟨0⟩, 63, 1000⟩ (fun _ => 0)
        { countingDrive with disk := fun _ _ _ => 0 } = some (m1, c1') ∧
      fsFormat (fun m _ => (m, 0x100000)) (fun m _ => m) 0 ⟨⟨0⟩, 63, 1000⟩ (fun _ => 0)
        { countingDrive with disk := fun _ _ _ => 0 } = some (m2, c2') ∧
      Fresh ⟨⟨0⟩, 63, 1000⟩ c1'.disk c2'.disk := by
  obtain ⟨m1, c1', m2, c2', ran1, ran2, fresh⟩ := fsFormat_fresh_iff (fun m _ => (m, 0x100000)) (fun m _ => m) 0
    ⟨⟨0⟩, 63, 1000⟩ (fun _ => 0) { countingDrive with disk := fun _ _ _ => 0 }
    { countingDrive with disk := fun _ _ _ => 0 } (by decide) (by decide)
  refine ⟨m1, c1', m2, c2', ran1, ran2, fresh.mpr ⟨by decide, ?_⟩⟩
  exact ⟨fun _ _ => rfl, fun _ _ _ _ _ => rfl, fun _ _ _ _ _ => rfl⟩

/-- An old disk of ones keeps inode 8 through formatting. -/
theorem fsFormat_keeps_inode :
    ¬∀ c1 c2, ∃ m1 c1' m2 c2', fsFormat (fun m _ => (m, 0x100000)) (fun m _ => m) 0 ⟨⟨0⟩, 63, 1000⟩ (fun _ => 0)
        c1 = some (m1, c1') ∧
      fsFormat (fun m _ => (m, 0x100000)) (fun m _ => m) 0 ⟨⟨0⟩, 63, 1000⟩ (fun _ => 0) c2 = some (m2, c2') ∧
      Fresh ⟨⟨0⟩, 63, 1000⟩ c1'.disk c2'.disk := by
  intro always
  let old : Channel := { countingDrive with disk := fun _ _ _ => 1 }
  obtain ⟨buf, before1, before2, before3, before4, run⟩ := fsFormat_formatted (fun m _ => (m, 0x100000))
    (fun m _ => m) 0 ⟨⟨0⟩, 63, 1000⟩ (fun _ => 0) (by decide) (by decide)
  obtain ⟨m1, c1', m2, c2', ran1, -, fresh⟩ := always old old
  obtain ⟨m', c', ran, formatted, -⟩ := run old
  rw [ran] at ran1
  obtain ⟨-, rfl⟩ := Prod.mk.inj (Option.some.inj ran1)
  have zero := fresh.blank1.inodes 8 (by decide) (by decide) 0 (by decide)
  rw [formatted.inode_kept (by decide) (by decide) (by decide)] at zero
  exact absurd zero (by decide : (1 : UInt8) ≠ 0)

end KOS.FsFresh
