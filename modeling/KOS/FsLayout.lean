import KOS.Fs

/-! The layout `fs_format` chooses: where its sectors lie, and what the super block on the disk
says about the partition. -/

namespace KOS.FsLayout
open KOS.ByteMemory KOS.Ata KOS.Ide KOS.IdeWrite KOS.Fs
open KOS.LinkMemory (load32 store32 load32_store32 load32_store32_apart)

variable {ptn : IdePtn}

/-! The addresses of the regions. Below 2^28 no sum of them wraps. -/

theorem inodeBtmpLba_eq (low : ptn.startLba ≤ 2 ^ 28) : (superBlock ptn).inodeBtmpLba = ptn.startLba + 2 := by
  simp only [superBlock, word]
  omega

theorem inodeTableLba_eq (low : ptn.startLba ≤ 2 ^ 28) : (superBlock ptn).inodeTableLba = ptn.startLba + 3 := by
  simp only [superBlock, word]
  omega

theorem inodeTableSec_eq (ptn : IdePtn) : (superBlock ptn).inodeTableSec = 512 := by
  have layout : INODE_CNT_MAX / INODE_PER_SEC = 512 := by decide
  simp only [superBlock, layout]

theorem blkBtmpLba_eq (low : ptn.startLba ≤ 2 ^ 28) : (superBlock ptn).blkBtmpLba = ptn.startLba + 515 := by
  have table := inodeTableLba_eq low
  have sectors := inodeTableSec_eq ptn
  have next : (superBlock ptn).blkBtmpLba =
      word ((superBlock ptn).inodeTableLba + (superBlock ptn).inodeTableSec) := rfl
  rw [next, table, sectors, word]
  omega

theorem blkLba_at (low : ptn.startLba ≤ 2 ^ 28) :
    (superBlock ptn).blkLba = ptn.startLba + 515 + (superBlock ptn).blkBtmpSec := by
  have small := blkBtmpSec_le ptn
  rw [blkLba_eq, blkBtmpLba_eq low, word]
  omega

/-- The sectors behind the inode table are counted exactly until their bytes need more than 32 bits. -/
theorem freeSectors_eq (ptn : IdePtn) (large : 515 ≤ ptn.secCnt) (low : ptn.secCnt ≤ 2 ^ 28) :
    freeSectors ptn = (ptn.secCnt - 515) % 2 ^ 23 := by
  unfold freeSectors
  omega

/-! The sectors the five writes reach. -/

/-- Sector `l` of drive `e` belongs to the partition. -/
def Inside (ptn : IdePtn) (e : Fin 2) (l : Nat) : Prop :=
  e = ptn.hd.drive ∧ ptn.startLba ≤ l ∧ l < ptn.startLba + ptn.secCnt

/-- Whatever changed on the disks lies in the partition. -/
def Confined (ptn : IdePtn) (disk disk' : Fin 2 → Nat → Sector) : Prop :=
  ∀ e l, ¬Inside ptn e l → disk' e l = disk e l

theorem written_outside {disk : Fin 2 → Nat → Sector} {m : Memory} {src base each l : Nat} {d e : Fin 2}
    (outside : ¬(e = d ∧ base ≤ l ∧ l < base + each)) : written disk m src d base each e l = disk e l := by
  funext j
  exact if_neg outside

theorem written_inside {disk : Fin 2 → Nat → Sector} {m : Memory} {src base each l : Nat} {d : Fin 2}
    (first : base ≤ l) (last : l < base + each) :
    written disk m src d base each d l = sourceSector m src (l - base) := by
  funext j
  rw [written, if_pos ⟨rfl, first, last⟩, sourceSector, position, Nat.add_assoc]

/-- A write into the partition leaves the rest of the disks alone. -/
theorem Confined.write {disk disk' : Fin 2 → Nat → Sector} (confined : Confined ptn disk disk') (m : Memory)
    (src : Nat) {base each : Nat} (first : ptn.startLba ≤ base) (last : base + each ≤ ptn.startLba + ptn.secCnt) :
    Confined ptn disk (written disk' m src ptn.hd.drive base each) := by
  intro e l outside
  rw [written_outside]
  · exact confined e l outside
  · intro reached
    exact outside ⟨reached.1, by omega, by omega⟩

/-- From 516 sectors on there is room behind the inode table for the bitmap and the root's block. -/
theorem blkBtmpSec_lt (large : 516 ≤ ptn.secCnt) (low : ptn.secCnt ≤ 2 ^ 28) :
    515 + (superBlock ptn).blkBtmpSec < ptn.secCnt := by
  rw [blkBtmpSec_eq, freeSectors_eq ptn (by omega) low]
  omega

/-- In a smaller partition the last write goes to a sector behind its end, or around the end of the drive. -/
theorem blkLba_outside (small : ptn.secCnt < 516) (fits : ptn.startLba + ptn.secCnt ≤ 2 ^ 28) :
    ¬Inside ptn ptn.hd.drive ((superBlock ptn).blkLba % 2 ^ 28) := by
  have low : ptn.startLba ≤ 2 ^ 28 := by omega
  have at_ := blkLba_at low
  have sectors := blkBtmpSec_le ptn
  intro inside
  obtain ⟨-, first, last⟩ := inside
  omega

theorem load_store_other {m : Memory} {a b : Nat} (v : UInt8) (apart : b % 2 ^ 32 ≠ a % 2 ^ 32) :
    load (store m a v) b = load m b := if_neg apart

theorem load_store32_other (m : Memory) {a b : Nat} (v : Nat) (apart : ∀ i < 4, b % 2 ^ 32 ≠ (a + i) % 2 ^ 32) :
    load (store32 m a v) b = load m b := by
  unfold load store32
  exact LinkMemory.fill_other m a 4 _ apart

/-- The name of the first entry stays while the rest of the two entries is filled in. -/
theorem storeDots_name (m : Memory) (dir : Nat) : load (storeDots m dir) (dir + 4) = 0x2E := by
  unfold storeDots SIZEOF_DIRENT
  dsimp only
  rw [load_store32_other _ _ (by intro i inside; omega), load_store32_other _ _ (by intro i inside; omega),
    load_store_other _ (by omega), load_store_other _ (by omega),
    load_store32_other _ _ (by intro i inside; omega), load_store32_other _ _ (by intro i inside; omega),
    load_store, if_pos rfl]

/-- Too small a partition: the last write puts a name on a sector of another one. -/
theorem fsFormat_strays (sysMalloc : Memory → Nat → Memory × Nat) (sysFree : Memory → Nat → Memory)
    (sb : Nat) (ptn : IdePtn) (m : Memory) (small : ptn.secCnt < 516) (fits : ptn.startLba + ptn.secCnt ≤ 2 ^ 28) :
    ∃ c m' c', fsFormat sysMalloc sysFree sb ptn m c = some (m', c') ∧ ¬Confined ptn c.disk c'.disk := by
  let c : Channel := { countingDrive with disk := fun _ _ _ => 0 }
  obtain ⟨buf, m0, m1, m2, m3, m4, c', -, -, -, -, -, dots, formatted, disk⟩ :=
    fsFormat_writes sysMalloc sysFree sb ptn m c
  refine ⟨c, _, c', formatted, ?_⟩
  intro kept
  have unchanged : c'.disk ptn.hd.drive ((superBlock ptn).blkLba % 2 ^ 28) 4 = 0 :=
    congrFun (kept _ _ (blkLba_outside small fits)) 4
  rw [disk, written, if_pos ⟨rfl, Nat.le_refl _, Nat.lt_succ_self _⟩, dots, position, Nat.sub_self] at unchanged
  have name := storeDots_name (clearBuf ptn buf m3) buf
  exact absurd (name.symm.trans unchanged) (by decide)

/-- The five writes at their places in the partition, with the memory each takes its data from. -/
theorem fsFormat_places (sysMalloc : Memory → Nat → Memory × Nat) (sysFree : Memory → Nat → Memory)
    (sb : Nat) (ptn : IdePtn) (m : Memory) (c : Channel) (large : 516 ≤ ptn.secCnt)
    (fits : ptn.startLba + ptn.secCnt ≤ 2 ^ 28) :
    ∃ buf m0 m1 m2 m3 m4 c',
      m0 = storeSuperBlock m sb (superBlock ptn) ∧
      buf = (sysMalloc m0 (bufSize ptn)).2 ∧
      m1 = store (clearBuf ptn buf (sysMalloc m0 (bufSize ptn)).1) buf 0x01 ∧
      m2 = storeRootInode (clearBuf ptn buf m1) buf (superBlock ptn) ∧
      m3 = storeBlockBitmap (clearBuf ptn buf m2) buf (superBlock ptn).blkCnt ∧
      m4 = storeDots (clearBuf ptn buf m3) buf ∧
      fsFormat sysMalloc sysFree sb ptn m c = some (sysFree m4 buf, c') ∧
      c'.disk = written (written (written (written (written c.disk
        m0 sb ptn.hd.drive (ptn.startLba + 1) 1)
        m1 buf ptn.hd.drive (ptn.startLba + 2) 1)
        m2 buf ptn.hd.drive (ptn.startLba + 3) 1)
        m3 buf ptn.hd.drive (ptn.startLba + 515) (superBlock ptn).blkBtmpSec)
        m4 buf ptn.hd.drive (ptn.startLba + 515 + (superBlock ptn).blkBtmpSec) 1 := by
  obtain ⟨buf, m0, m1, m2, m3, m4, c', image0, allocated, image1, image2, image3, image4, formatted, disk⟩ :=
    fsFormat_writes sysMalloc sysFree sb ptn m c
  have low : ptn.startLba ≤ 2 ^ 28 := by omega
  have room := blkBtmpSec_lt large (by omega)
  have first : word (ptn.startLba + 1) = ptn.startLba + 1 := by
    unfold word
    omega
  have base : ∀ l < ptn.startLba + ptn.secCnt, l % 2 ^ 28 = l := fun l inside => Nat.mod_eq_of_lt (by omega)
  refine ⟨buf, m0, m1, m2, m3, m4, c', image0, allocated, image1, image2, image3, image4, formatted, ?_⟩
  rw [disk, first, inodeBtmpLba_eq low, inodeTableLba_eq low, blkBtmpLba_eq low, blkLba_at low,
    inodeBtmpSec_eq, base _ (by omega), base _ (by omega), base _ (by omega), base _ (by omega),
    base _ (by omega)]

theorem fsFormat_confined (sysMalloc : Memory → Nat → Memory × Nat) (sysFree : Memory → Nat → Memory)
    (sb : Nat) (ptn : IdePtn) (m : Memory) (c : Channel) (large : 516 ≤ ptn.secCnt)
    (fits : ptn.startLba + ptn.secCnt ≤ 2 ^ 28) :
    ∃ m' c', fsFormat sysMalloc sysFree sb ptn m c = some (m', c') ∧ Confined ptn c.disk c'.disk := by
  obtain ⟨buf, m0, m1, m2, m3, m4, c', -, -, -, -, -, -, formatted, disk⟩ :=
    fsFormat_places sysMalloc sysFree sb ptn m c large fits
  have room := blkBtmpSec_lt large (by omega)
  have start : Confined ptn c.disk c.disk := fun _ _ _ => rfl
  refine ⟨_, c', formatted, ?_⟩
  rw [disk]
  apply Confined.write _ _ _ (by omega) (by omega)
  apply Confined.write _ _ _ (by omega) (by omega)
  apply Confined.write _ _ _ (by omega) (by omega)
  apply Confined.write _ _ _ (by omega) (by omega)
  exact start.write _ _ (by omega) (by omega)

/-- `fs_format` stays in its partition, whatever is on the disks, exactly when the partition has
a sector behind the inode table. -/
theorem fsFormat_confined_iff (sysMalloc : Memory → Nat → Memory × Nat) (sysFree : Memory → Nat → Memory)
    (sb : Nat) (ptn : IdePtn) (m : Memory) (fits : ptn.startLba + ptn.secCnt ≤ 2 ^ 28) :
    (∀ c, ∃ m' c', fsFormat sysMalloc sysFree sb ptn m c = some (m', c') ∧ Confined ptn c.disk c'.disk) ↔
      516 ≤ ptn.secCnt := by
  constructor
  · intro confined
    by_contra small
    obtain ⟨c, m', c', formatted, strays⟩ := fsFormat_strays sysMalloc sysFree sb ptn m (by omega) fits
    obtain ⟨m'', c'', formatted', kept⟩ := confined c
    rw [formatted] at formatted'
    obtain ⟨-, rfl⟩ := Prod.mk.inj (Option.some.inj formatted')
    exact strays kept
  · intro large c
    exact fsFormat_confined sysMalloc sysFree sb ptn m c large fits

theorem fsFormat_confined_1000 :
    ∃ m' c', fsFormat (fun m _ => (m, 0x100000)) (fun m _ => m) 0 ⟨⟨0⟩, 63, 1000⟩ (fun _ => 0) countingDrive =
      some (m', c') ∧ Confined ⟨⟨0⟩, 63, 1000⟩ countingDrive.disk c'.disk :=
  (fsFormat_confined_iff (fun m _ => (m, 0x100000)) (fun m _ => m) 0 ⟨⟨0⟩, 63, 1000⟩ (fun _ => 0)
    (by decide)).mpr (by decide) countingDrive

/-- A partition of 515 sectors takes its root directory's block from the next one. -/
theorem fsFormat_strays_515 :
    ¬∀ c, ∃ m' c', fsFormat (fun m _ => (m, 0x100000)) (fun m _ => m) 0 ⟨⟨0⟩, 63, 515⟩ (fun _ => 0) c =
      some (m', c') ∧ Confined ⟨⟨0⟩, 63, 515⟩ c.disk c'.disk := by
  intro confined
  obtain ⟨c, m', c', formatted, strays⟩ := fsFormat_strays (fun m _ => (m, 0x100000))
    (fun m _ => m) 0 ⟨⟨0⟩, 63, 515⟩ (fun _ => 0) (by decide) (by decide)
  obtain ⟨m'', c'', formatted', kept⟩ := confined c
  rw [formatted] at formatted'
  obtain ⟨-, rfl⟩ := Prod.mk.inj (Option.some.inj formatted')
  exact strays kept

/-! The super block on the disk. -/

/-- The fields of the super block at `sb`. -/
def loadSuperBlock (m : Memory) (sb : Nat) : SuperBlock where
  magic := load32 m sb
  inodeCnt := load32 m (sb + 4)
  inodeBtmpLba := load32 m (sb + 8)
  inodeBtmpSec := load32 m (sb + 12)
  inodeTableLba := load32 m (sb + 16)
  inodeTableSec := load32 m (sb + 20)
  blkCnt := load32 m (sb + 24)
  blkBtmpLba := load32 m (sb + 28)
  blkBtmpSec := load32 m (sb + 32)
  blkLba := load32 m (sb + 36)

/-- A sector as it lies in a buffer at address 0. -/
def image (s : Sector) : Memory := fun a => s (Fin.ofNat 512 a)

theorem load32_congr {m m' : Memory} {a b : Nat} (same : ∀ k < 4, load m (a + k) = load m' (b + k)) :
    load32 m a = load32 m' b := by
  have first := same 0 (by decide)
  rw [Nat.add_zero, Nat.add_zero] at first
  unfold load32
  rw [first, same 1 (by decide), same 2 (by decide), same 3 (by decide)]

theorem loadSuperBlock_congr {m m' : Memory} {a b : Nat} (same : ∀ k < 40, load m (a + k) = load m' (b + k)) :
    loadSuperBlock m a = loadSuperBlock m' b := by
  have field : ∀ i ≤ 36, load32 m (a + i) = load32 m' (b + i) := by
    intro i inside
    apply load32_congr
    intro k small
    rw [Nat.add_assoc, Nat.add_assoc]
    exact same _ (by omega)
  have first := field 0 (by decide)
  rw [Nat.add_zero, Nat.add_zero] at first
  unfold loadSuperBlock
  rw [first, field 4 (by decide), field 8 (by decide), field 12 (by decide), field 16 (by decide),
    field 20 (by decide), field 24 (by decide), field 28 (by decide), field 32 (by decide), field 36 (by decide)]

/-- The fields fit into the words they are stored in. -/
structure SuperBlock.Words (s : SuperBlock) : Prop where
  magic : s.magic < 2 ^ 32
  inodeCnt : s.inodeCnt < 2 ^ 32
  inodeBtmpLba : s.inodeBtmpLba < 2 ^ 32
  inodeBtmpSec : s.inodeBtmpSec < 2 ^ 32
  inodeTableLba : s.inodeTableLba < 2 ^ 32
  inodeTableSec : s.inodeTableSec < 2 ^ 32
  blkCnt : s.blkCnt < 2 ^ 32
  blkBtmpLba : s.blkBtmpLba < 2 ^ 32
  blkBtmpSec : s.blkBtmpSec < 2 ^ 32
  blkLba : s.blkLba < 2 ^ 32

theorem superBlock_words (ptn : IdePtn) : SuperBlock.Words (superBlock ptn) := by
  have word_lt : ∀ n, word n < 2 ^ 32 := fun n => Nat.mod_lt _ (by decide)
  have sectors := blkBtmpSec_le ptn
  have blocks := blkCnt_eq ptn
  have free := freeSectors_lt ptn
  constructor
  · exact (by decide : FS_MAGIC < 2 ^ 32)
  · exact (by decide : INODE_CNT_MAX < 2 ^ 32)
  · exact word_lt _
  · exact (by decide : 1 < 2 ^ 32)
  · exact word_lt _
  · exact (by decide : INODE_CNT_MAX / INODE_PER_SEC < 2 ^ 32)
  · omega
  · exact word_lt _
  · omega
  · exact word_lt _

theorem load32_store32_field (m : Memory) {sb x y : Nat} (v : Nat) (apart : x + 4 ≤ y ∨ y + 4 ≤ x)
    (near : x < 2 ^ 16 ∧ y < 2 ^ 16) : load32 (store32 m (sb + x) v) (sb + y) = load32 m (sb + y) := by
  apply load32_store32_apart
  intro i inside j inside'
  omega

/-- What is stored field by field is loaded field by field. -/
theorem loadSuperBlock_store (m : Memory) (sb : Nat) {s : SuperBlock} (words : SuperBlock.Words s) :
    loadSuperBlock (storeSuperBlock m sb s) sb = s := by
  have same : ∀ (m : Memory) (a : Nat) {v : Nat}, v < 2 ^ 32 → load32 (store32 m a v) a = v := fun m a _ =>
    load32_store32 m a
  have first : ∀ (m : Memory) {x : Nat} (v : Nat), 4 ≤ x → x < 2 ^ 16 →
      load32 (store32 m (sb + x) v) sb = load32 m sb := fun m x v low high =>
    load32_store32_field (y := 0) m v (.inr (by omega)) ⟨high, by decide⟩
  cases words
  unfold loadSuperBlock storeSuperBlock
  simp (disch := omega) only [first, load32_store32_field, same]

/-- The super block a sector holds. -/
def superBlockOf (s : Sector) : SuperBlock := loadSuperBlock (image s) 0

theorem superBlockOf_source (m : Memory) (src : Nat) :
    superBlockOf (sourceSector m src 0) = loadSuperBlock m src := by
  apply loadSuperBlock_congr
  intro k inside
  have lane : (0 + k) % 2 ^ 32 % 512 = k := by omega
  simp only [load, image, sourceSector, Fin.ofNat, lane, Nat.mul_zero, Nat.add_zero]

/-- Sector 1 of a formatted partition is the super block of step 1: the other writes lie behind it. -/
theorem fsFormat_superBlock (sysMalloc : Memory → Nat → Memory × Nat) (sysFree : Memory → Nat → Memory)
    (sb : Nat) (ptn : IdePtn) (m : Memory) (c : Channel) (large : 516 ≤ ptn.secCnt)
    (fits : ptn.startLba + ptn.secCnt ≤ 2 ^ 28) :
    ∃ m' c', fsFormat sysMalloc sysFree sb ptn m c = some (m', c') ∧
      superBlockOf (c'.disk ptn.hd.drive (ptn.startLba + 1)) = superBlock ptn := by
  obtain ⟨buf, m0, m1, m2, m3, m4, c', stored, -, -, -, -, -, formatted, disk⟩ :=
    fsFormat_places sysMalloc sysFree sb ptn m c large fits
  have sector : c'.disk ptn.hd.drive (ptn.startLba + 1) = sourceSector m0 sb 0 := by
    rw [disk, written_outside (by omega), written_outside (by omega), written_outside (by omega),
      written_outside (by omega), written_inside (by omega) (by omega), Nat.sub_self]
  refine ⟨_, c', formatted, ?_⟩
  rw [sector, superBlockOf_source, stored]
  exact loadSuperBlock_store m sb (superBlock_words ptn)

/-- The regions of the layout comment: in this order behind the boot and super-block sectors, without
overlap, within the partition and using it up but for a rest smaller than a block. -/
structure Geometry (ptn : IdePtn) (s : SuperBlock) : Prop where
  inodeBtmp : ptn.startLba + 2 ≤ s.inodeBtmpLba
  inodeTable : s.inodeBtmpLba + s.inodeBtmpSec ≤ s.inodeTableLba
  blkBtmp : s.inodeTableLba + s.inodeTableSec ≤ s.blkBtmpLba
  blocks : s.blkBtmpLba + s.blkBtmpSec ≤ s.blkLba
  ends : s.blkLba + 8 * s.blkCnt ≤ ptn.startLba + ptn.secCnt
  bits : s.blkCnt ≤ 8 * (s.blkBtmpSec * SECTOR_SIZE)
  rest : ptn.secCnt < 2 + s.inodeBtmpSec + s.inodeTableSec + s.blkBtmpSec + 8 * s.blkCnt + 8

theorem geometry_iff (large : 524 ≤ ptn.secCnt) (fits : ptn.startLba + ptn.secCnt ≤ 2 ^ 28) :
    Geometry ptn (superBlock ptn) ↔ ptn.secCnt < 2 ^ 23 + 515 := by
  have low : ptn.startLba ≤ 2 ^ 28 := by omega
  have bitmap := inodeBtmpLba_eq low
  have table := inodeTableLba_eq low
  have sectors := inodeTableSec_eq ptn
  have one := inodeBtmpSec_eq ptn
  have blockBitmap := blkBtmpLba_eq low
  have blocks := blkLba_at low
  have free := freeSectors_eq ptn (by omega) (by omega)
  have sized := blkBtmpSec_eq ptn
  have counted := blkCnt_eq ptn
  constructor
  · intro geometry
    have rest := geometry.rest
    omega
  · intro below
    constructor
    · omega
    · omega
    · omega
    · omega
    · omega
    · unfold SECTOR_SIZE
      omega
    · omega

/-- The product of sectors and bytes has 32 bits: from 2^23 sectors behind the inode table on, the
blocks counted leave the rest of the partition out. -/
theorem fsFormat_geometry_iff (sysMalloc : Memory → Nat → Memory × Nat) (sysFree : Memory → Nat → Memory)
    (sb : Nat) (ptn : IdePtn) (m : Memory) (c : Channel) (large : 524 ≤ ptn.secCnt)
    (fits : ptn.startLba + ptn.secCnt ≤ 2 ^ 28) :
    ∃ m' c', fsFormat sysMalloc sysFree sb ptn m c = some (m', c') ∧
      (Geometry ptn (superBlockOf (c'.disk ptn.hd.drive (ptn.startLba + 1))) ↔ ptn.secCnt < 2 ^ 23 + 515) := by
  obtain ⟨m', c', formatted, described⟩ := fsFormat_superBlock sysMalloc sysFree sb ptn m c (by omega) fits
  refine ⟨m', c', formatted, ?_⟩
  rw [described]
  exact geometry_iff large fits

theorem fsFormat_geometry_1000 :
    ∃ m' c', fsFormat (fun m _ => (m, 0x100000)) (fun m _ => m) 0 ⟨⟨0⟩, 63, 1000⟩ (fun _ => 0) countingDrive =
        some (m', c') ∧ Geometry ⟨⟨0⟩, 63, 1000⟩ (superBlockOf (c'.disk 0 (63 + 1))) := by
  obtain ⟨m', c', formatted, described⟩ := fsFormat_geometry_iff (fun m _ => (m, 0x100000)) (fun m _ => m) 0
    ⟨⟨0⟩, 63, 1000⟩ (fun _ => 0) countingDrive (by decide) (by decide)
  exact ⟨m', c', formatted, described.mpr (by decide)⟩

/-- 4 GiB behind the inode table, and the super block knows of no block. -/
theorem fsFormat_leaves_4GiB :
    ∃ m' c', fsFormat (fun m _ => (m, 0x100000)) (fun m _ => m) 0 ⟨⟨0⟩, 63, 2 ^ 23 + 515⟩ (fun _ => 0)
        countingDrive = some (m', c') ∧
      ¬Geometry ⟨⟨0⟩, 63, 2 ^ 23 + 515⟩ (superBlockOf (c'.disk 0 (63 + 1))) := by
  obtain ⟨m', c', formatted, described⟩ := fsFormat_superBlock (fun m _ => (m, 0x100000))
    (fun m _ => m) 0 ⟨⟨0⟩, 63, 2 ^ 23 + 515⟩ (fun _ => 0) countingDrive (by decide) (by decide)
  refine ⟨m', c', formatted, ?_⟩
  have sector : superBlockOf (c'.disk 0 (63 + 1)) = superBlock ⟨⟨0⟩, 63, 2 ^ 23 + 515⟩ := described
  rw [sector, geometry_iff (by decide) (by decide)]
  decide

end KOS.FsLayout
