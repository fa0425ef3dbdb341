import KOS.Fs

/-! The temporary buffer of `fs_format`: every access as an operation at an offset, and which offsets lie in the
bytes that were asked for. -/

namespace KOS.FsBuffer
open KOS.ByteMemory KOS.Ata KOS.Ide KOS.Fs
open KOS.LinkMemory (store32)

/-- What `fs_format` does through `buf`, with offsets from it. -/
inductive BufOp where
  | memset (off : Nat) (ch : UInt8) (n : Nat)
  | storeByte (off : Nat) (v : UInt8)
  | storeWord (off v : Nat)
  | clearBit (off idx : Nat)
  | ideWrite (lba cnt : Nat)

/-- The offsets of the bytes that it reads or writes. -/
def footprint : BufOp → Set Nat
  | .memset off _ n => Set.Ico off (off + n)
  | .storeByte off _ => Set.Ico off (off + 1)
  | .storeWord off _ => Set.Ico off (off + 4)
  | .clearBit off _ => Set.Ico off (off + 1)
  | .ideWrite _ cnt => Set.Ico 0 (cnt * SECTOR_SIZE)

def exec (hd : IdeHd) (buf : Nat) (m : Memory) (c : Channel) : BufOp → Option (Memory × Channel)
  | .memset off ch n => some (ByteMemory.memset m (buf + off) ch n, c)
  | .storeByte off v => some (store m (buf + off) v, c)
  | .storeWord off v => some (store32 m (buf + off) v, c)
  | .clearBit off idx => some (store m (buf + off) (load m (buf + off) &&& ~~~(1 <<< UInt8.ofNat idx)), c)
  | .ideWrite lba cnt => (Ide.ideWrite hd lba buf cnt m c).map fun c => (m, c)

def execAll (hd : IdeHd) (buf : Nat) : List BufOp → Memory → Channel → Option (Memory × Channel)
  | [], m, c => some (m, c)
  | op :: rest, m, c => (exec hd buf m c op).bind fun r => execAll hd buf rest r.1 r.2

/-- `idx` from 0 up to `last_bit`. -/
def clearOps (lastByte lastBit : Nat) : List BufOp := (List.range' 0 (lastBit + 1)).map (BufOp.clearBit lastByte)

/-- Step 2 of `fs_format`: the inode bitmap. -/
def inodeBitmapOps (s : SuperBlock) (size : Nat) : List BufOp :=
  [.memset 0 0 size, .storeByte 0 0x01, .ideWrite s.inodeBtmpLba s.inodeBtmpSec]

def inodeTableOps (s : SuperBlock) (size : Nat) : List BufOp :=
  [.memset 0 0 size, .storeWord 0 0, .storeWord 4 (SIZEOF_DIRENT * 2), .storeWord 8 s.blkLba,
    .ideWrite s.inodeTableLba 1]

/-- Step 3: the block bitmap. -/
def blockBitmapOps (s : SuperBlock) (size : Nat) : List BufOp :=
  let lastByte := s.blkCnt / 8
  let lastBit := s.blkCnt % 8
  let lastSize := SECTOR_SIZE - lastByte % SECTOR_SIZE
  [.memset 0 0 size, .storeByte 0 0x01, .memset lastByte 0xFF lastSize] ++ (clearOps lastByte lastBit ++
    [.ideWrite s.blkBtmpLba s.blkBtmpSec])

def rootBlockOps (s : SuperBlock) (size : Nat) : List BufOp :=
  [.memset 0 0 size, .storeByte 4 0x2E, .storeWord 0 0, .storeWord 20 FT_DIR,
    .storeByte (SIZEOF_DIRENT + 4) 0x2E, .storeByte (SIZEOF_DIRENT + 5) 0x2E, .storeWord SIZEOF_DIRENT 0,
    .storeWord (SIZEOF_DIRENT + 20) FT_DIR, .ideWrite s.blkLba 1]

/-- The accesses of `fs_format`, in order. -/
def formatOps (ptn : IdePtn) : List BufOp :=
  inodeBitmapOps (superBlock ptn) (bufSize ptn) ++ (inodeTableOps (superBlock ptn) (bufSize ptn) ++
    (blockBitmapOps (superBlock ptn) (bufSize ptn) ++ rootBlockOps (superBlock ptn) (bufSize ptn)))

variable {hd : IdeHd} {buf : Nat} {m m' : Memory} {c : Channel}

theorem execAll_append (hd : IdeHd) (buf : Nat) (left right : List BufOp) (m : Memory) (c : Channel) :
    execAll hd buf (left ++ right) m c = (execAll hd buf left m c).bind fun r => execAll hd buf right r.1 r.2 := by
  induction left generalizing m c with
  | nil => rfl
  | cons op rest ih =>
    rw [List.cons_append, execAll, execAll, Option.bind_assoc]
    congr 1
    funext r
    exact ih r.1 r.2

/-- The loop of `fs_format` is its operations. -/
theorem execAll_clearBits (hd : IdeHd) (buf byte idx n : Nat) (m : Memory) (c : Channel) :
    execAll hd buf ((List.range' idx n).map (BufOp.clearBit byte)) m c =
      some (if n = 0 then m else clearBits m (buf + byte) idx (idx + n - 1), c) := by
  induction n generalizing m idx with
  | zero => rfl
  | succ n ih =>
    rw [List.range'_succ, List.map_cons, execAll, exec, Option.bind_some, ih, if_neg (Nat.succ_ne_zero n)]
    conv_rhs => rw [clearBits]
    rw [if_pos (show idx ≤ idx + (n + 1) - 1 by omega)]
    by_cases last : n = 0
    · subst last
      rw [if_pos rfl, clearBits, if_neg (show ¬idx + 1 ≤ idx + (0 + 1) - 1 by omega)]
    · rw [if_neg last, show idx + 1 + n - 1 = idx + (n + 1) - 1 by omega]

theorem execAll_clearOps (hd : IdeHd) (buf lastByte lastBit : Nat) (m : Memory) (c : Channel) :
    execAll hd buf (clearOps lastByte lastBit) m c = some (clearBits m (buf + lastByte) 0 lastBit, c) := by
  unfold clearOps
  rw [execAll_clearBits, if_neg (Nat.succ_ne_zero lastBit), show 0 + (lastBit + 1) - 1 = lastBit by omega]

theorem execAll_ideWrite (hd : IdeHd) (buf lba cnt : Nat) (m : Memory) (c : Channel) :
    execAll hd buf [.ideWrite lba cnt] m c = (Ide.ideWrite hd lba buf cnt m c).map fun c => (m, c) := by
  rw [execAll, exec]
  cases Ide.ideWrite hd lba buf cnt m c with
  | none => rfl
  | some c => rfl

/-! The four parts, each with the write that ends it. -/

section Parts
variable (s : SuperBlock) (size : Nat)

theorem execAll_inodeBitmap :
    execAll hd buf (inodeBitmapOps s size) m c =
      (Ide.ideWrite hd s.inodeBtmpLba buf s.inodeBtmpSec (store (memset m buf 0 size) buf 0x01) c).map
        fun c => (store (memset m buf 0 size) buf 0x01, c) :=
  execAll_ideWrite hd buf s.inodeBtmpLba s.inodeBtmpSec (store (memset m buf 0 size) buf 0x01) c

theorem execAll_inodeTable :
    execAll hd buf (inodeTableOps s size) m c =
      (Ide.ideWrite hd s.inodeTableLba buf 1 (storeRootInode (memset m buf 0 size) buf s) c).map
        fun c => (storeRootInode (memset m buf 0 size) buf s, c) :=
  execAll_ideWrite hd buf s.inodeTableLba 1 (storeRootInode (memset m buf 0 size) buf s) c

theorem execAll_rootBlock :
    execAll hd buf (rootBlockOps s size) m c =
      (Ide.ideWrite hd s.blkLba buf 1 (storeDots (memset m buf 0 size) buf) c).map
        fun c => (storeDots (memset m buf 0 size) buf, c) :=
  execAll_ideWrite hd buf s.blkLba 1 (storeDots (memset m buf 0 size) buf) c

theorem execAll_blockBitmap :
    execAll hd buf (blockBitmapOps s size) m c =
      (Ide.ideWrite hd s.blkBtmpLba buf s.blkBtmpSec (storeBlockBitmap (memset m buf 0 size) buf s.blkCnt) c).map
        fun c => (storeBlockBitmap (memset m buf 0 size) buf s.blkCnt, c) := by
  unfold blockBitmapOps storeBlockBitmap
  dsimp only
  generalize SECTOR_SIZE - s.blkCnt / 8 % SECTOR_SIZE = lastSize
  generalize s.blkCnt / 8 = lastByte
  generalize s.blkCnt % 8 = lastBit
  have filled : execAll hd buf [.memset 0 0 size, .storeByte 0 0x01, .memset lastByte 0xFF lastSize] m c =
      some (memset (store (memset m buf 0 size) buf 0x01) (buf + lastByte) 0xFF lastSize, c) := rfl
  rw [execAll_append, filled, Option.bind_some, execAll_append, execAll_clearOps, Option.bind_some]
  exact execAll_ideWrite hd buf s.blkBtmpLba s.blkBtmpSec _ c

end Parts

/-- `fs_format` writes the super block, and everything else it does is done to the buffer. -/
theorem fsFormat_eq_execAll (sysMalloc : Memory → Nat → Memory × Nat) (sysFree : Memory → Nat → Memory)
    (sb : Nat) (ptn : IdePtn) (m : Memory) (c : Channel) :
    fsFormat sysMalloc sysFree sb ptn m c =
      (Ide.ideWrite ptn.hd (word (ptn.startLba + 1)) sb 1 (storeSuperBlock m sb (superBlock ptn)) c).bind fun c =>
        let r := sysMalloc (storeSuperBlock m sb (superBlock ptn)) (bufSize ptn)
        (execAll ptn.hd r.2 (formatOps ptn) r.1 c).map fun s => (sysFree s.1 r.2, s.2) := by
  unfold fsFormat formatOps clearBuf
  generalize superBlock ptn = s
  generalize bufSize ptn = size
  dsimp only
  congr 1
  funext c
  generalize sysMalloc (storeSuperBlock m sb s) size = r
  cases r with
  | mk mem buf =>
    dsimp only
    rw [execAll_append, execAll_inodeBitmap]
    generalize store (memset mem buf 0 size) buf 0x01 = m1
    cases Ide.ideWrite ptn.hd s.inodeBtmpLba buf s.inodeBtmpSec m1 c with
    | none => rfl
    | some c =>
      rw [Option.map_some, Option.bind_some, Option.bind_some, execAll_append, execAll_inodeTable]
      generalize storeRootInode (memset m1 buf 0 size) buf s = m2
      cases Ide.ideWrite ptn.hd s.inodeTableLba buf 1 m2 c with
      | none => rfl
      | some c =>
        rw [Option.map_some, Option.bind_some, Option.bind_some, execAll_append, execAll_blockBitmap]
        generalize storeBlockBitmap (memset m2 buf 0 size) buf s.blkCnt = m3
        cases Ide.ideWrite ptn.hd s.blkBtmpLba buf s.blkBtmpSec m3 c with
        | none => rfl
        | some c =>
          rw [Option.map_some, Option.bind_some, Option.bind_some, execAll_rootBlock]
          generalize storeDots (memset m3 buf 0 size) buf = m4
          cases Ide.ideWrite ptn.hd s.blkLba buf 1 m4 c with
          | none => rfl
          | some c => rfl

/-! The footprints are right: nothing else is written, and the drive is sent nothing else. -/

theorem exec_frame {op : BufOp} {r : Memory × Channel} {x : Nat} (ran : exec hd buf m c op = some r)
    (outside : ∀ o ∈ footprint op, x ≠ (buf + o) % 2 ^ 32) : r.1 x = m x := by
  cases op with
  | memset off ch n =>
    rw [← Option.some.inj ran, memset_eq_fill]
    apply LinkMemory.fill_other
    intro i inside
    rw [Nat.add_assoc]
    exact outside (off + i) ⟨by omega, by omega⟩
  | storeByte off v =>
    rw [← Option.some.inj ran]
    exact if_neg (outside off ⟨le_rfl, by omega⟩)
  | storeWord off v =>
    rw [← Option.some.inj ran]
    apply LinkMemory.fill_other
    intro i inside
    rw [Nat.add_assoc]
    exact outside (off + i) ⟨by omega, by omega⟩
  | clearBit off idx =>
    rw [← Option.some.inj ran]
    exact if_neg (outside off ⟨le_rfl, by omega⟩)
  | ideWrite lba cnt =>
    obtain ⟨c', -, rfl⟩ := Option.map_eq_some_iff.mp ran
    rfl

theorem outsw_congr {addr n : Nat} (agree : ∀ o, o < 2 * n → load m' (addr + o) = load m (addr + o)) :
    c.outsw m' addr n = c.outsw m addr n := by
  induction n generalizing c addr with
  | zero => rfl
  | succ n ih =>
    have low := agree 0 (by omega)
    rw [Nat.add_zero] at low
    rw [Channel.outsw, Channel.outsw, low, agree 1 (by omega)]
    apply ih
    intro o inside
    rw [Nat.add_assoc]
    exact agree (2 + o) (by omega)

theorem ideWriteLoop_congr {lba cnt cntDone src : Nat}
    (agree : ∀ o, o < (cnt - cntDone) * SECTOR_SIZE → load m' (src + o) = load m (src + o)) :
    ideWriteLoop lba cnt cntDone src m' c = ideWriteLoop lba cnt cntDone src m c := by
  induction cntDone, src, c using ideWriteLoop.induct cnt with
  | case1 cntDone src c more ih =>
    have each := cntEach_eq_min cnt cntDone
    have data : ∀ c : Channel, ideSetData c m' src (cntEach cnt cntDone) = ideSetData c m src (cntEach cnt cntDone) := by
      intro c
      apply outsw_congr
      intro o inside
      apply agree o
      unfold SECTOR_SIZE at inside ⊢
      omega
    have chunk : ideWriteChunk lba (cntEach cnt cntDone) src m' c = ideWriteChunk lba (cntEach cnt cntDone) src m c := by
      unfold ideWriteChunk
      simp only [data]
    rw [ideWriteLoop, if_pos more, chunk]
    conv_rhs => rw [ideWriteLoop, if_pos more]
    congr 1
    funext c'
    apply ih c'
    intro o inside
    have here := agree (cntEach cnt cntDone * SECTOR_SIZE + o) (by unfold SECTOR_SIZE at inside ⊢; omega)
    calc
      load m' ((src + cntEach cnt cntDone * SECTOR_SIZE) % 2 ^ 32 + o) =
          load m' (src + (cntEach cnt cntDone * SECTOR_SIZE + o)) := load_congr m' (by omega)
      _ = load m (src + (cntEach cnt cntDone * SECTOR_SIZE + o)) := here
      _ = load m ((src + cntEach cnt cntDone * SECTOR_SIZE) % 2 ^ 32 + o) := load_congr m (by omega)
  | case2 cntDone src c done =>
    rw [ideWriteLoop, if_neg done, ideWriteLoop, if_neg done]

theorem exec_reads {op : BufOp} (agree : ∀ o ∈ footprint op, load m' (buf + o) = load m (buf + o)) :
    (exec hd buf m' c op).map Prod.snd = (exec hd buf m c op).map Prod.snd := by
  cases op with
  | memset | storeByte | storeWord | clearBit => rfl
  | ideWrite lba cnt =>
    have same : Ide.ideWrite hd lba buf cnt m' c = Ide.ideWrite hd lba buf cnt m c := by
      apply ideWriteLoop_congr
      intro o inside
      exact agree o ⟨Nat.zero_le o, inside⟩
    rw [exec, exec, same, Option.map_map, Option.map_map]
    rfl

/-! What fits. -/

/-- Every byte is one of the first `size`. -/
def Fits (size : Nat) (op : BufOp) : Prop := footprint op ⊆ Set.Iio size

/-- Every access lies in the bytes that were asked for. -/
def Inside (ptn : IdePtn) : Prop := ∀ op ∈ formatOps ptn, Fits (bufSize ptn) op

variable {size : Nat}

theorem Ico_fits {off n : Nat} : Set.Ico off (off + n) ⊆ Set.Iio size ↔ n = 0 ∨ off + n ≤ size := by
  constructor
  · intro fits
    by_cases none : n = 0
    · exact Or.inl none
    · have last := fits (show off + n - 1 ∈ Set.Ico off (off + n) from ⟨by omega, by omega⟩)
      have below : off + n - 1 < size := last
      omega
  · intro room x member
    have low := member.1
    have high := member.2
    show x < size
    omega

theorem clearOps_fit {lastByte lastBit : Nat} :
    (∀ op ∈ clearOps lastByte lastBit, Fits size op) ↔ lastByte + 1 ≤ size := by
  have one : ∀ idx, Fits size (.clearBit lastByte idx) ↔ lastByte + 1 ≤ size := by
    intro idx
    apply Ico_fits.trans
    omega
  unfold clearOps
  rw [List.forall_mem_map]
  constructor
  · intro fit
    exact (one 0).mp (fit 0 (List.mem_range'_1.mpr ⟨le_rfl, by omega⟩))
  · intro room idx _
    exact (one idx).mpr room

/-- The sectors of the block bitmap make up the buffer. -/
theorem bufSize_eq (ptn : IdePtn) : bufSize ptn = (superBlock ptn).blkBtmpSec * 512 := by
  have few := blkBtmpSec_le ptn
  unfold bufSize word SECTOR_SIZE
  omega

/-- A whole buffer of at least one sector takes everything but the tail of the block bitmap. -/
theorem parts_fit (s : SuperBlock) (inode : s.inodeBtmpSec = 1) (sectors : size = s.blkBtmpSec * 512) :
    (∀ op ∈ inodeBitmapOps s size ++ (inodeTableOps s size ++ (blockBitmapOps s size ++ rootBlockOps s size)),
      Fits size op) ↔ 512 ≤ size ∧ s.blkCnt / 8 + (512 - s.blkCnt / 8 % 512) ≤ size := by
  have tail : s.blkCnt / 8 % 512 < 512 := Nat.mod_lt _ (by decide)
  have memset : ∀ off ch n, Fits size (.memset off ch n) ↔ n = 0 ∨ off + n ≤ size := fun _ _ _ => Ico_fits
  have byte : ∀ off v, Fits size (.storeByte off v) ↔ 1 = 0 ∨ off + 1 ≤ size := fun _ _ => Ico_fits
  have word : ∀ off v, Fits size (.storeWord off v) ↔ 4 = 0 ∨ off + 4 ≤ size := fun _ _ => Ico_fits
  have sent : ∀ lba cnt, Fits size (.ideWrite lba cnt) ↔ cnt * 512 = 0 ∨ cnt * 512 ≤ size := by
    intro lba cnt
    have range := @Ico_fits size 0 (cnt * 512)
    rw [Nat.zero_add] at range
    exact range
  unfold inodeBitmapOps inodeTableOps blockBitmapOps rootBlockOps SECTOR_SIZE SIZEOF_DIRENT
  dsimp only
  generalize s.blkCnt / 8 % 512 = within at tail
  generalize s.blkCnt / 8 = lastByte
  generalize s.blkCnt % 8 = lastBit
  simp only [List.forall_mem_append, List.forall_mem_cons, clearOps_fit, memset, byte, word, sent, inode,
    List.not_mem_nil, false_imp_iff, implies_true, and_true]
  constructor
  · intro fits
    omega
  · intro room
    omega

/-- `fs_format` keeps to its buffer for every partition but those with fewer than 8 free sectors, where the buffer
has no bytes, and those whose last block is the last of the bitmap, where the boundary byte lies behind it. -/
theorem formatOps_inside_iff (ptn : IdePtn) :
    Inside ptn ↔ 8 ≤ freeSectors ptn ∧
      ∀ b, 1 ≤ b → ¬(32768 * b + b ≤ freeSectors ptn ∧ freeSectors ptn ≤ 32768 * b + 7) := by
  have sectors := blkBtmpSec_eq ptn
  have count := blkCnt_eq ptn
  have size := bufSize_eq ptn
  have parts := parts_fit (superBlock ptn) (inodeBtmpSec_eq ptn) size
  unfold Inside formatOps
  rw [parts, size]
  clear parts size
  generalize superBlock ptn = s at *
  generalize freeSectors ptn = free at *
  constructor
  · intro fits
    refine ⟨by omega, ?_⟩
    intro b positive full
    have same : s.blkBtmpSec = b := by omega
    have blocks : s.blkCnt = 4096 * b := by omega
    rw [blocks, same] at fits
    omega
  · intro room
    obtain ⟨least, boundary⟩ := room
    have notFull := boundary s.blkBtmpSec (by omega)
    omega

/-- 520 sectors: a buffer of no bytes, and a byte stored in it. -/
theorem smallPartition_overruns : ¬Inside ⟨⟨0⟩, 63, 520⟩ := by
  intro inside
  have stored : BufOp.storeByte 0 0x01 ∈ formatOps ⟨⟨0⟩, 63, 520⟩ :=
    List.mem_append_left _ (List.mem_cons_of_mem _ List.mem_cons_self)
  have below := inside _ stored (show 0 ∈ Set.Ico 0 (0 + 1) from ⟨le_rfl, by omega⟩)
  have size : bufSize ⟨⟨0⟩, 63, 520⟩ = 0 := by decide
  rw [size] at below
  exact absurd below (Nat.not_lt_zero 0)

end KOS.FsBuffer
