import KOS.IdeWrite
import KOS.LinkMemory

/-! `fs_format`: the layout of an empty partition and the five writes that put it on disk.
The allocator is whatever `sys_malloc` and `sys_free` do to memory. -/

namespace KOS.Fs
open KOS.ByteMemory KOS.Ata KOS.Ide KOS.IdeWrite
open KOS.LinkMemory (store32)

def FS_MAGIC : Nat := 0x19890604
def BLOCK_SIZE : Nat := 4096
def FT_DIR : Nat := 2
def SIZEOF_INODE_HD : Nat := 60
def SIZEOF_DIRENT : Nat := 24
def INODE_CNT_MAX : Nat := SECTOR_SIZE * 8
def INODE_PER_SEC : Nat := SECTOR_SIZE / SIZEOF_INODE_HD

/-- `uint32_t` arithmetic. -/
def word (n : Nat) : Nat := n % 2 ^ 32

def wordSub (a b : Nat) : Nat := (a + (2 ^ 32 - b % 2 ^ 32)) % 2 ^ 32

def divRoundUp (x step : Nat) : Nat := word (x + step - 1) / step

/-- `struct ide_ptn`, as far as formatting reads it. -/
structure IdePtn where
  hd : IdeHd
  startLba : Nat
  secCnt : Nat

/-- `struct super_block` without its padding. -/
structure SuperBlock where
  magic : Nat
  inodeCnt : Nat
  inodeBtmpLba : Nat
  inodeBtmpSec : Nat
  inodeTableLba : Nat
  inodeTableSec : Nat
  blkCnt : Nat
  blkBtmpLba : Nat
  blkBtmpSec : Nat
  blkLba : Nat

/-- Step 1 of `fs_format`. The bitmap is sized for the blocks that would fit without it. -/
def superBlock (ptn : IdePtn) : SuperBlock :=
  let inodeBtmpLba := word (ptn.startLba + 2)
  let inodeBtmpSec := 1
  let inodeTableLba := word (inodeBtmpLba + 1)
  let inodeTableSec := INODE_CNT_MAX / INODE_PER_SEC
  let usedSec := 2 + inodeBtmpSec + inodeTableSec
  let freeSec := wordSub ptn.secCnt usedSec
  let blkCnt := word (freeSec * SECTOR_SIZE) / BLOCK_SIZE
  let blkBtmpLba := word (inodeTableLba + inodeTableSec)
  let blkBtmpSec := divRoundUp blkCnt (SECTOR_SIZE * 8)
  { magic := FS_MAGIC
    inodeCnt := INODE_CNT_MAX
    inodeBtmpLba, inodeBtmpSec, inodeTableLba, inodeTableSec
    blkCnt := word (wordSub freeSec blkBtmpSec * SECTOR_SIZE) / BLOCK_SIZE
    blkBtmpLba, blkBtmpSec
    blkLba := word (blkBtmpLba + blkBtmpSec) }

/-- The assignments to the local `sb`; the padding keeps what the stack held. -/
def storeSuperBlock (m : Memory) (sb : Nat) (s : SuperBlock) : Memory :=
  let m := store32 m sb s.magic
  let m := store32 m (sb + 4) s.inodeCnt
  let m := store32 m (sb + 8) s.inodeBtmpLba
  let m := store32 m (sb + 12) s.inodeBtmpSec
  let m := store32 m (sb + 16) s.inodeTableLba
  let m := store32 m (sb + 20) s.inodeTableSec
  let m := store32 m (sb + 24) s.blkCnt
  let m := store32 m (sb + 28) s.blkBtmpLba
  let m := store32 m (sb + 32) s.blkBtmpSec
  store32 m (sb + 36) s.blkLba

def storeRootInode (m : Memory) (root : Nat) (s : SuperBlock) : Memory :=
  let m := store32 m root 0
  let m := store32 m (root + 4) (SIZEOF_DIRENT * 2)
  store32 m (root + 8) s.blkLba

/-- `buf[last_byte] &= ~(1 << idx)` for `idx` up to `last_bit`. -/
def clearBits (m : Memory) (byte idx lastBit : Nat) : Memory :=
  if idx ≤ lastBit then
    clearBits (store m byte (load m byte &&& ~~~(1 <<< UInt8.ofNat idx))) byte (idx + 1) lastBit
  else m
termination_by lastBit + 1 - idx

/-- Step 3 of `fs_format`, on a zeroed buffer: the root's block, then the tail of the last sector. -/
def storeBlockBitmap (m : Memory) (buf blkCnt : Nat) : Memory :=
  let m := store m buf 0x01
  let lastByte := blkCnt / 8
  let lastBit := blkCnt % 8
  let lastSize := SECTOR_SIZE - lastByte % SECTOR_SIZE
  let m := memset m (buf + lastByte) 0xFF lastSize
  clearBits m (buf + lastByte) 0 lastBit

/-- The entries "." and ".." of the root directory. -/
def storeDots (m : Memory) (dir : Nat) : Memory :=
  let m := store m (dir + 4) 0x2E
  let m := store32 m dir 0
  let m := store32 m (dir + 20) FT_DIR
  let dir := dir + SIZEOF_DIRENT
  let m := store (store m (dir + 4) 0x2E) (dir + 5) 0x2E
  let m := store32 m dir 0
  store32 m (dir + 20) FT_DIR

def bufSize (ptn : IdePtn) : Nat := word ((superBlock ptn).blkBtmpSec * SECTOR_SIZE)

/-- `memset(buf, 0, buf_size)`. -/
def clearBuf (ptn : IdePtn) (buf : Nat) (m : Memory) : Memory := memset m buf 0 (bufSize ptn)

/-- `sb` is the address of the local super block. -/
def fsFormat (sysMalloc : Memory → Nat → Memory × Nat) (sysFree : Memory → Nat → Memory)
    (sb : Nat) (ptn : IdePtn) (m : Memory) (c : Channel) : Option (Memory × Channel) :=
  let s := superBlock ptn
  let m := storeSuperBlock m sb s
  (ideWrite ptn.hd (word (ptn.startLba + 1)) sb 1 m c).bind fun c =>
  let (m, buf) := sysMalloc m (bufSize ptn)
  let m := store (clearBuf ptn buf m) buf 0x01
  (ideWrite ptn.hd s.inodeBtmpLba buf s.inodeBtmpSec m c).bind fun c =>
  let m := storeRootInode (clearBuf ptn buf m) buf s
  (ideWrite ptn.hd s.inodeTableLba buf 1 m c).bind fun c =>
  let m := storeBlockBitmap (clearBuf ptn buf m) buf s.blkCnt
  (ideWrite ptn.hd s.blkBtmpLba buf s.blkBtmpSec m c).bind fun c =>
  let m := storeDots (clearBuf ptn buf m) buf
  (ideWrite ptn.hd s.blkLba buf 1 m c).bind fun c =>
  some (sysFree m buf, c)

/-! The layout in terms of the sectors left after the fixed part. -/

/-- Sectors behind the inode table, up to the 2^23 that 32-bit byte counts can express. -/
def freeSectors (ptn : IdePtn) : Nat := (ptn.secCnt + (2 ^ 32 - 515)) % 2 ^ 23

theorem freeSectors_lt (ptn : IdePtn) : freeSectors ptn < 2 ^ 23 := Nat.mod_lt _ (by decide)

theorem blkBtmpSec_eq (ptn : IdePtn) :
    (superBlock ptn).blkBtmpSec = (freeSectors ptn / 8 + 4095) / 4096 := by
  have layout : INODE_CNT_MAX / INODE_PER_SEC = 512 := by decide
  simp only [superBlock, divRoundUp, word, wordSub, layout, SECTOR_SIZE, BLOCK_SIZE, freeSectors]
  omega

theorem blkBtmpSec_le (ptn : IdePtn) : (superBlock ptn).blkBtmpSec ≤ 256 := by
  have bound := freeSectors_lt ptn
  rw [blkBtmpSec_eq]
  omega

theorem blkCnt_eq (ptn : IdePtn) :
    (superBlock ptn).blkCnt = (freeSectors ptn - (superBlock ptn).blkBtmpSec) / 8 := by
  have layout : INODE_CNT_MAX / INODE_PER_SEC = 512 := by decide
  have size := blkBtmpSec_eq ptn
  have bound := freeSectors_lt ptn
  have count : (superBlock ptn).blkCnt =
      word (wordSub (wordSub ptn.secCnt 515) (superBlock ptn).blkBtmpSec * 512) / 4096 := by
    simp only [superBlock, layout, SECTOR_SIZE, BLOCK_SIZE]
  rw [count]
  simp only [word, wordSub, freeSectors] at *
  omega

theorem blkLba_eq (ptn : IdePtn) :
    (superBlock ptn).blkLba = word ((superBlock ptn).blkBtmpLba + (superBlock ptn).blkBtmpSec) := rfl

/-! What the five writes leave on the disk. -/

theorem ideWrite_short (hd : IdeHd) (lba src cnt : Nat) (m : Memory) (c : Channel) (one : cnt ≤ 256) :
    ∃ c', ideWrite hd lba src cnt m c = some c' ∧
      c'.disk = written c.disk m src hd.drive (lba % 2 ^ 28) cnt := by
  obtain ⟨c', ran, disk⟩ := ideWrite_writes hd lba src cnt m c
  refine ⟨c', ran, ?_⟩
  funext e l
  have start : src % 2 ^ 32 = (src + 512 * 0) % 2 ^ 32 := by rw [Nat.mul_zero, Nat.add_zero]
  rw [disk, written_apply c.disk m _ _ _ start, Nat.min_eq_right one]
  by_cases inside : e = hd.drive ∧ lba % 2 ^ 28 ≤ l ∧ l < lba % 2 ^ 28 + cnt
  · rw [if_pos inside, if_pos inside,
      show lastPass cnt (l - lba % 2 ^ 28) = 0 + (l - lba % 2 ^ 28) by unfold lastPass; omega]
  · rw [if_neg inside, if_neg inside]

theorem inodeBtmpSec_eq (ptn : IdePtn) : (superBlock ptn).inodeBtmpSec = 1 := rfl

/-- The five writes, with the memory each of them takes its data from. -/
theorem fsFormat_writes (sysMalloc : Memory → Nat → Memory × Nat) (sysFree : Memory → Nat → Memory)
    (sb : Nat) (ptn : IdePtn) (m : Memory) (c : Channel) :
    ∃ buf m0 m1 m2 m3 m4 c',
      m0 = storeSuperBlock m sb (superBlock ptn) ∧
      buf = (sysMalloc m0 (bufSize ptn)).2 ∧
      m1 = store (clearBuf ptn buf (sysMalloc m0 (bufSize ptn)).1) buf 0x01 ∧
      m2 = storeRootInode (clearBuf ptn buf m1) buf (superBlock ptn) ∧
      m3 = storeBlockBitmap (clearBuf ptn buf m2) buf (superBlock ptn).blkCnt ∧
      m4 = storeDots (clearBuf ptn buf m3) buf ∧
      fsFormat sysMalloc sysFree sb ptn m c = some (sysFree m4 buf, c') ∧
      c'.disk = written (written (written (written (written c.disk
        m0 sb ptn.hd.drive (word (ptn.startLba + 1) % 2 ^ 28) 1)
        m1 buf ptn.hd.drive ((superBlock ptn).inodeBtmpLba % 2 ^ 28) (superBlock ptn).inodeBtmpSec)
        m2 buf ptn.hd.drive ((superBlock ptn).inodeTableLba % 2 ^ 28) 1)
        m3 buf ptn.hd.drive ((superBlock ptn).blkBtmpLba % 2 ^ 28) (superBlock ptn).blkBtmpSec)
        m4 buf ptn.hd.drive ((superBlock ptn).blkLba % 2 ^ 28) 1 := by
  have bitmapSectors := blkBtmpSec_le ptn
  have inodeSectors := inodeBtmpSec_eq ptn
  simp only [fsFormat]
  generalize superBlock ptn = s at *
  generalize storeSuperBlock m sb s = m0
  obtain ⟨c0, ran0, disk0⟩ := ideWrite_short ptn.hd (word (ptn.startLba + 1)) sb 1 m0 c (by decide)
  rw [ran0, Option.bind_some]
  generalize allocation : sysMalloc m0 (bufSize ptn) = allocated
  obtain ⟨mem, buf⟩ := allocated
  dsimp only
  generalize image1 : store (clearBuf ptn buf mem) buf 1 = m1
  obtain ⟨c1, ran1, disk1⟩ := ideWrite_short ptn.hd s.inodeBtmpLba buf s.inodeBtmpSec m1 c0 (by omega)
  rw [ran1, Option.bind_some]
  generalize image2 : storeRootInode (clearBuf ptn buf m1) buf s = m2
  obtain ⟨c2, ran2, disk2⟩ := ideWrite_short ptn.hd s.inodeTableLba buf 1 m2 c1 (by decide)
  rw [ran2, Option.bind_some]
  generalize image3 : storeBlockBitmap (clearBuf ptn buf m2) buf s.blkCnt = m3
  obtain ⟨c3, ran3, disk3⟩ := ideWrite_short ptn.hd s.blkBtmpLba buf s.blkBtmpSec m3 c2 bitmapSectors
  rw [ran3, Option.bind_some]
  generalize image4 : storeDots (clearBuf ptn buf m3) buf = m4
  obtain ⟨c4, ran4, disk4⟩ := ideWrite_short ptn.hd s.blkLba buf 1 m4 c3 (by decide)
  rw [ran4, Option.bind_some]
  refine ⟨buf, m0, m1, m2, m3, m4, c4, rfl, ?_, ?_, image2.symm, image3.symm, image4.symm, rfl, ?_⟩
  · rw [allocation]
  · rw [allocation, image1]
  · rw [disk4, disk3, disk2, disk1, disk0]

/-- The bitmap sectors hold what step 3 put in the buffer: the last write lies behind them. -/
theorem fsFormat_bitmap (sysMalloc : Memory → Nat → Memory × Nat) (sysFree : Memory → Nat → Memory)
    (sb : Nat) (ptn : IdePtn) (m : Memory) (c : Channel) :
    ∃ m' c' before buf, fsFormat sysMalloc sysFree sb ptn m c = some (m', c') ∧
      ∀ s < (superBlock ptn).blkBtmpSec,
        c'.disk ptn.hd.drive ((superBlock ptn).blkBtmpLba % 2 ^ 28 + s) =
          sourceSector (storeBlockBitmap (clearBuf ptn buf before) buf (superBlock ptn).blkCnt) buf s := by
  obtain ⟨buf, m0, m1, m2, m3, m4, c', -, -, -, -, image, -, formatted, disk⟩ :=
    fsFormat_writes sysMalloc sysFree sb ptn m c
  refine ⟨_, c', m2, buf, formatted, fun s inside => ?_⟩
  have small := blkBtmpSec_le ptn
  have next := blkLba_eq ptn
  rw [disk, ← image]
  funext j
  rw [written, if_neg (by unfold word at next; omega), written, if_pos ⟨rfl, by omega, by omega⟩]
  simp only [sourceSector, position, Nat.add_sub_cancel_left, Nat.add_assoc]

end KOS.Fs
