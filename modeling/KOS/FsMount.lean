import KOS.Clients
import KOS.FsLayout
import KOS.IdeRead
import KOS.RootDir

/-! `fs_mount` behind `fs_format`. The inode bitmap is read through the block bitmap's pointer,
before that pointer is set. -/

namespace KOS.FsMount
open KOS.ByteMemory KOS.Ata KOS.Ide KOS.IdeRead KOS.Fs KOS.FsLayout KOS.Machine KOS.Clients
open KOS.RootDir (Root addToDir addToDir_room assignBase live rootDirInit)

structure Bitmap where
  len : Nat
  bits : Nat

/-- `struct ide_ptn` without its list node, its list of open inodes and its lock. -/
structure FsPtn where
  ptn : IdePtn
  name : List UInt8
  inodeBase : Nat
  inodeCnt : Nat
  inodeBtmpLba : Nat
  inodeBtmp : Bitmap
  inodeTableLba : Nat
  blkBtmpLba : Nat
  blkBtmp : Bitmap
  blkLba : Nat

/-- A call of `ide_read`. -/
structure Read where
  lba : Nat
  dst : Nat
  cnt : Nat

structure Mounted (σ : Type) where
  alloc : σ
  chan : Channel
  ptn : FsPtn
  root : Root
  inodeMax : Nat
  /-- The calls of `ide_read`, in order. -/
  reads : List Read

variable {σ : Type} (C : Calls σ)

/-- `fs_format` on the memory of the heap. -/
def fsFormat (sb : Nat) (ptn : IdePtn) (s : σ) (c : Channel) : Option (σ × Channel) :=
  let (buf, s') := C.sysMalloc (C.setMem s (storeSuperBlock (C.mem s) sb (superBlock ptn))) (bufSize ptn)
  (Fs.fsFormat (fun _ _ => (C.mem s', buf)) (fun m _ => m) sb ptn (C.mem s) c).bind fun (m, c) =>
    (C.sysFree (C.setMem s' m) buf).map fun s => (s, c)

def SIZEOF_SUPER_BLOCK : Nat := 512

/-- `ide_read` into the memory of the heap. -/
def readSectors (hd : IdeHd) (lba dst cnt : Nat) (s : σ) (c : Channel) : Option (σ × Channel) :=
  (ideRead hd lba dst cnt (C.mem s) c).map fun (m, c) => (C.setMem s m, c)

/-- The part under `set inode`. The super block's fields are read from memory wherever the source
uses them. -/
def setInode (sb : Nat) (f : FsPtn) (s : σ) (c : Channel) : Option (FsPtn × Read × σ × Channel) :=
  let b := loadSuperBlock (C.mem s) sb
  let len := word (b.inodeBtmpSec * SECTOR_SIZE)
  let (bits, s) := C.sysMalloc s len
  let read : Read := ⟨b.inodeBtmpLba, f.blkBtmp.bits, (loadSuperBlock (C.mem s) sb).inodeBtmpSec⟩
  (readSectors C f.ptn.hd read.lba read.dst read.cnt s c).map fun (s, c) =>
    ({ f with
        inodeCnt := b.inodeCnt
        inodeBtmpLba := b.inodeBtmpLba
        inodeBtmp := ⟨len, bits⟩
        inodeTableLba := (loadSuperBlock (C.mem s) sb).inodeTableLba }, read, s, c)

/-- The part under `set block`. -/
def setBlock (sb : Nat) (f : FsPtn) (s : σ) (c : Channel) : Option (FsPtn × Read × σ × Channel) :=
  let b := loadSuperBlock (C.mem s) sb
  let len := word (b.blkBtmpSec * SECTOR_SIZE)
  let (bits, s) := C.sysMalloc s len
  let read : Read := ⟨b.blkBtmpLba, bits, (loadSuperBlock (C.mem s) sb).blkBtmpSec⟩
  (readSectors C f.ptn.hd read.lba read.dst read.cnt s c).map fun (s, c) =>
    ({ f with
        blkBtmpLba := b.blkBtmpLba
        blkBtmp := ⟨len, bits⟩
        blkLba := (loadSuperBlock (C.mem s) sb).blkLba }, read, s, c)

def fsMount (f : FsPtn) (root : Root) (inodeMax : Nat) (s : σ) (c : Channel) : Option (Mounted σ) := do
  let (sb, s) := C.sysMalloc s SIZEOF_SUPER_BLOCK
  let sbRead : Read := ⟨word (f.ptn.startLba + 1), sb, 1⟩
  let (s, c) ← readSectors C f.ptn.hd sbRead.lba sbRead.dst sbRead.cnt s c
  let (f, inodeRead, s, c) ← setInode C sb f s c
  let (f, blkRead, s, c) ← setBlock C sb f s c
  let (inodeBase, inodeMax) := assignBase inodeMax f.inodeBase (loadSuperBlock (C.mem s) sb).inodeCnt
  let root ← addToDir root f.name inodeBase
  let s ← C.sysFree s sb
  some ⟨s, c, { f with inodeBase }, root, inodeMax, [sbRead, inodeRead, blkRead]⟩

/-- The contract of `sys_malloc` and `sys_free` kept for every call, whatever the clients write: a block is handed
out once until it is freed, NULL is no block, and a free returns. The heap keeps it as long as no client writes over
its bytes or frees NULL; `FsHeap.format_mount_misreads` is about the heap itself. -/
structure Allocator (σ : Type) extends Calls σ where
  /-- The blocks handed out and not freed. -/
  blocks : σ → Set Nat
  null_free : ∀ s, 0 ∉ blocks s
  malloc_new : ∀ s n, (sysMalloc s n).1 ∉ blocks s
  malloc_blocks : ∀ s n p, p ∈ blocks (sysMalloc s n).2 ↔ p ∈ blocks s ∨ p = (sysMalloc s n).1 ∧ p ≠ 0
  free_blocks : ∀ s p, ∃ s', sysFree s p = some s' ∧ ∀ q, q ∈ blocks s' ↔ q ∈ blocks s ∧ q ≠ p
  write_blocks : ∀ s m, blocks (setMem s m) = blocks s

variable (A : Allocator σ)

/-- The buffer of a bitmap holds the bitmap's sectors. -/
def Loaded (m : Memory) (disk : Fin 2 → Nat → Sector) (d : Fin 2) (lba : Nat) (b : Bitmap) : Prop :=
  ∀ k < b.len, load m (b.bits + k) = Channel.byteOf disk d lba k

/-- A mounted partition has in memory what is on its disk, and each bitmap was read into the buffer
allocated for it. -/
structure RoundTrip (r : Mounted σ) : Prop where
  inodeBits : Loaded (A.mem r.alloc) r.chan.disk r.ptn.ptn.hd.drive (superBlock r.ptn.ptn).inodeBtmpLba r.ptn.inodeBtmp
  blkBits : Loaded (A.mem r.alloc) r.chan.disk r.ptn.ptn.hd.drive (superBlock r.ptn.ptn).blkBtmpLba r.ptn.blkBtmp
  inodeBuffer : r.ptn.inodeBtmp.bits ∈ A.blocks r.alloc ∧ ∃ cnt, r.reads[1]? =
    some ⟨r.ptn.inodeBtmpLba, r.ptn.inodeBtmp.bits, cnt⟩
  blkBuffer : r.ptn.blkBtmp.bits ∈ A.blocks r.alloc ∧ ∃ cnt, r.reads[2]? =
    some ⟨r.ptn.blkBtmpLba, r.ptn.blkBtmp.bits, cnt⟩
  inodeCnt : r.ptn.inodeCnt = (superBlock r.ptn.ptn).inodeCnt
  inodeBtmpLba : r.ptn.inodeBtmpLba = (superBlock r.ptn.ptn).inodeBtmpLba
  inodeTableLba : r.ptn.inodeTableLba = (superBlock r.ptn.ptn).inodeTableLba
  blkBtmpLba : r.ptn.blkBtmpLba = (superBlock r.ptn.ptn).blkBtmpLba
  blkLba : r.ptn.blkLba = (superBlock r.ptn.ptn).blkLba

/-! What the calls do to the blocks. -/

variable {A}

theorem readSectors_reads (hd : IdeHd) (lba dst cnt : Nat) (s : σ) (c : Channel) :
    ∃ s' c', readSectors A.toCalls hd lba dst cnt s c = some (s', c') ∧ A.blocks s' = A.blocks s := by
  obtain ⟨m, c', read, -, -⟩ := ideRead_reads hd lba dst cnt (A.mem s) c
  refine ⟨A.setMem s m, c', ?_, A.write_blocks s m⟩
  rw [readSectors, read, Option.map_some]

theorem malloc_keeps {s : σ} {p : Nat} (n : Nat) (block : p ∈ A.blocks s) : p ∈ A.blocks (A.sysMalloc s n).2 :=
  (A.malloc_blocks s n p).mpr (.inl block)

/-- Three calls of which the first one's block is freed: the other two blocks are new, and they stay. -/
theorem three_taken {s s1 s2 s3 : σ} {size n n' : Nat} (blocks1 : A.blocks s1 = A.blocks (A.sysMalloc s size).2)
    (blocks2 : A.blocks s2 = A.blocks (A.sysMalloc s1 n).2) (blocks3 : A.blocks s3 = A.blocks (A.sysMalloc s2 n').2) :
    (A.sysMalloc s1 n).1 ∉ A.blocks s ∧ (A.sysMalloc s2 n').1 ∉ A.blocks s ∧
      ((A.sysMalloc s2 n').1 = (A.sysMalloc s1 n).1 → (A.sysMalloc s2 n').1 = 0) ∧
      ∃ s4, A.sysFree s3 (A.sysMalloc s size).1 = some s4 ∧ ∀ p, p ∈ A.blocks s4 ↔
        p ∈ A.blocks s ∨ p ≠ 0 ∧ (p = (A.sysMalloc s1 n).1 ∨ p = (A.sysMalloc s2 n').1) := by
  have new1 := A.malloc_new s size
  have new2 := A.malloc_new s1 n
  have new3 := A.malloc_new s2 n'
  have held1 := A.malloc_blocks s size
  have held2 := A.malloc_blocks s1 n
  have held3 := A.malloc_blocks s2 n'
  rw [← blocks1] at held1
  rw [← blocks2] at held2
  rw [← blocks3] at held3
  have first : (A.sysMalloc s size).1 ≠ 0 → (A.sysMalloc s size).1 ∈ A.blocks s1 := by
    intro some
    exact (held1 _).mpr (.inr ⟨rfl, some⟩)
  obtain ⟨s4, freed, left⟩ := A.free_blocks s3 (A.sysMalloc s size).1
  refine ⟨?_, ?_, ?_, s4, freed, ?_⟩
  · intro old
    exact new2 ((held1 _).mpr (.inl old))
  · intro old
    exact new3 ((held2 _).mpr (.inl ((held1 _).mpr (.inl old))))
  · intro same
    by_contra some
    exact new3 ((held2 _).mpr (.inr ⟨same, some⟩))
  · intro p
    rw [left, held3, held2, held1]
    constructor
    · intro kept
      rcases kept.1 with ((old | sb) | second) | third
      · exact .inl old
      · exact absurd sb.1 kept.2
      · exact .inr ⟨second.2, .inl second.1⟩
      · exact .inr ⟨third.2, .inr third.1⟩
    · intro kept
      rcases kept with old | ⟨some, second | third⟩
      · refine ⟨.inl (.inl (.inl old)), ?_⟩
        intro same
        exact new1 (same ▸ old)
      · refine ⟨.inl (.inr ⟨second, some⟩), ?_⟩
        intro same
        rw [← second, same] at new2
        exact new2 (first (same ▸ some))
      · refine ⟨.inr ⟨third, some⟩, ?_⟩
        intro same
        rw [← third, same] at new3
        exact new3 ((held2 _).mpr (.inl (first (same ▸ some))))

/-- `fs_format` frees the one block it takes. -/
theorem fsFormat_blocks (sb : Nat) (ptn : IdePtn) (s : σ) (c : Channel) :
    ∃ s' c', fsFormat A.toCalls sb ptn s c = some (s', c') ∧ A.blocks s' = A.blocks s := by
  unfold fsFormat
  generalize stored : A.setMem s (storeSuperBlock (A.mem s) sb (superBlock ptn)) = s0
  have same : A.blocks s0 = A.blocks s := by
    rw [← stored]
    exact A.write_blocks _ _
  obtain ⟨buf, m0, m1, m2, m3, m4, c', -, -, -, -, -, -, formatted, -⟩ :=
    fsFormat_writes (fun _ _ => (A.mem (A.sysMalloc s0 (bufSize ptn)).2, (A.sysMalloc s0 (bufSize ptn)).1))
      (fun m _ => m) sb ptn (A.mem s) c
  dsimp only
  rw [formatted]
  obtain ⟨s', freed, left⟩ := A.free_blocks (A.setMem (A.sysMalloc s0 (bufSize ptn)).2 m4) (A.sysMalloc s0 (bufSize ptn)).1
  refine ⟨s', c', ?_, ?_⟩
  · rw [Option.bind_some, freed]
    rfl
  ext q
  rw [left, A.write_blocks, A.malloc_blocks, same]
  have fresh := A.malloc_new s0 (bufSize ptn)
  rw [same] at fresh
  constructor
  · intro kept
    rcases kept.1 with old | new
    · exact old
    · exact absurd new.1 kept.2
  · intro old
    refine ⟨.inl old, ?_⟩
    rintro rfl
    exact fresh old

theorem setInode_course (sb : Nat) (f : FsPtn) (s : σ) (c : Channel) :
    ∃ f' lba cnt s' c', setInode A.toCalls sb f s c = some (f', ⟨lba, f.blkBtmp.bits, cnt⟩, s', c') ∧
      f'.ptn = f.ptn ∧ f'.name = f.name ∧ f'.inodeBtmpLba = lba ∧
      f'.inodeBtmp.bits = (A.sysMalloc s (word ((loadSuperBlock (A.mem s) sb).inodeBtmpSec * SECTOR_SIZE))).1 ∧
      A.blocks s' = A.blocks (A.sysMalloc s (word ((loadSuperBlock (A.mem s) sb).inodeBtmpSec * SECTOR_SIZE))).2 := by
  unfold setInode
  dsimp only
  obtain ⟨s', c', read, blocks⟩ := readSectors_reads (A := A) f.ptn.hd (loadSuperBlock (A.mem s) sb).inodeBtmpLba
    f.blkBtmp.bits (loadSuperBlock (A.mem (A.sysMalloc s
      (word ((loadSuperBlock (A.mem s) sb).inodeBtmpSec * SECTOR_SIZE))).2) sb).inodeBtmpSec
    (A.sysMalloc s (word ((loadSuperBlock (A.mem s) sb).inodeBtmpSec * SECTOR_SIZE))).2 c
  rw [read]
  exact ⟨_, _, _, s', c', rfl, rfl, rfl, rfl, rfl, blocks⟩

theorem setBlock_course (sb : Nat) (f : FsPtn) (s : σ) (c : Channel) :
    ∃ f' read s' c', setBlock A.toCalls sb f s c = some (f', read, s', c') ∧ f'.ptn = f.ptn ∧ f'.name = f.name ∧
      f'.inodeBtmp = f.inodeBtmp ∧ f'.inodeBtmpLba = f.inodeBtmpLba ∧
      f'.blkBtmp.bits = (A.sysMalloc s (word ((loadSuperBlock (A.mem s) sb).blkBtmpSec * SECTOR_SIZE))).1 ∧
      A.blocks s' = A.blocks (A.sysMalloc s (word ((loadSuperBlock (A.mem s) sb).blkBtmpSec * SECTOR_SIZE))).2 := by
  unfold setBlock
  dsimp only
  obtain ⟨s', c', read, blocks⟩ := readSectors_reads (A := A) f.ptn.hd (loadSuperBlock (A.mem s) sb).blkBtmpLba
    (A.sysMalloc s (word ((loadSuperBlock (A.mem s) sb).blkBtmpSec * SECTOR_SIZE))).1
    (loadSuperBlock (A.mem (A.sysMalloc s
      (word ((loadSuperBlock (A.mem s) sb).blkBtmpSec * SECTOR_SIZE))).2) sb).blkBtmpSec
    (A.sysMalloc s (word ((loadSuperBlock (A.mem s) sb).blkBtmpSec * SECTOR_SIZE))).2 c
  rw [read]
  exact ⟨_, _, s', c', rfl, rfl, rfl, rfl, rfl, rfl, blocks⟩

/-- The course of `fs_mount` as far as the blocks go: the state `s'` in which the inode bitmap's buffer
is taken, and the pointer its sectors are read through. -/
structure Course (f : FsPtn) (s : σ) (r : Mounted σ) : Prop where
  ptn : r.ptn.ptn = f.ptn
  inodeRead : ∃ lba cnt, r.reads[1]? = some ⟨lba, f.blkBtmp.bits, cnt⟩
  inodeBits : ∃ s' n, A.blocks s ⊆ A.blocks s' ∧ r.ptn.inodeBtmp.bits = (A.sysMalloc s' n).1
  kept : A.blocks s ⊆ A.blocks r.alloc
  blkBits : r.ptn.blkBtmp.bits = 0 ∨ r.ptn.blkBtmp.bits ∈ A.blocks r.alloc

/-- Only the entry in the root directory can be missing at the end. -/
theorem fsMount_course (f : FsPtn) (root : Root) (inodeMax : Nat) (s : σ) (c : Channel) :
    ∃ name iNo mounted, fsMount A.toCalls f root inodeMax s c = (addToDir root name iNo).map mounted ∧
      ∀ root', Course (A := A) f s (mounted root') := by
  unfold fsMount
  obtain ⟨s1, c1, read1, blocks1⟩ := readSectors_reads (A := A) f.ptn.hd (word (f.ptn.startLba + 1))
    (A.sysMalloc s SIZEOF_SUPER_BLOCK).1 1 (A.sysMalloc s SIZEOF_SUPER_BLOCK).2 c
  obtain ⟨f2, lba, cnt, s2, c2, inode, ptn2, name2, -, bits2, blocks2⟩ :=
    setInode_course (A := A) (A.sysMalloc s SIZEOF_SUPER_BLOCK).1 f s1 c1
  obtain ⟨f3, read3, s3, c3, block, ptn3, name3, inode3, -, bits3, blocks3⟩ :=
    setBlock_course (A := A) (A.sysMalloc s SIZEOF_SUPER_BLOCK).1 f2 s2 c2
  obtain ⟨-, -, -, s4, freed, held⟩ := three_taken blocks1 blocks2 blocks3
  simp only [read1, inode, block, freed, Option.bind_eq_bind, Option.bind_some]
  have grows : A.blocks s ⊆ A.blocks s1 := by
    intro p old
    rw [blocks1]
    exact malloc_keeps _ old
  refine ⟨_, _, _, (Option.map_eq_bind ..).symm, ?_⟩
  intro root'
  constructor
  · exact ptn3.trans ptn2
  · exact ⟨lba, cnt, rfl⟩
  · exact ⟨s1, _, grows, (congrArg Bitmap.bits inode3).trans bits2⟩
  · intro p old
    exact (held p).mpr (.inl old)
  · change f3.blkBtmp.bits = 0 ∨ f3.blkBtmp.bits ∈ A.blocks s4
    rw [bits3, held]
    by_cases null : (A.sysMalloc s2 (word ((loadSuperBlock (A.mem s2)
        (A.sysMalloc s SIZEOF_SUPER_BLOCK).1).blkBtmpSec * SECTOR_SIZE))).1 = 0
    · exact .inl null
    · exact .inr (.inr ⟨null, .inr rfl⟩)

/-- Through a pointer that is NULL or an older block, the inode bitmap does not reach its buffer. -/
theorem Course.misread {f : FsPtn} {s : σ} {r : Mounted σ} (course : Course (A := A) f s r)
    (stale : f.blkBtmp.bits = 0 ∨ f.blkBtmp.bits ∈ A.blocks s) : ¬RoundTrip A r := by
  intro trip
  obtain ⟨allocated, cnt, read⟩ := trip.inodeBuffer
  obtain ⟨lba, cnt', read'⟩ := course.inodeRead
  have same : f.blkBtmp.bits = r.ptn.inodeBtmp.bits := congrArg Read.dst (Option.some.inj (read'.symm.trans read))
  obtain ⟨s', n, grows, fresh⟩ := course.inodeBits
  rcases stale with null | old
  · rw [← same, null] at allocated
    exact A.null_free _ allocated
  · have taken := grows old
    rw [same, fresh] at taken
    exact A.malloc_new s' n taken

/-! Runs: partitions are formatted, mounted and unmounted while the rest of the kernel allocates, frees and
writes what is its own. -/

structure State (σ : Type) where
  alloc : σ
  chan : Channel
  ptns : List FsPtn
  root : Root
  inodeMax : Nat

inductive Event (σ : Type) where
  | others (alloc : σ) (chan : Channel)
  | format (k sb : Nat)
  | mount (k : Nat)
  | unmount (k : Nat)

def step (C : Calls σ) (s : State σ) : Event σ → Option (State σ)
  | .others alloc chan => some { s with alloc, chan }
  | .format k sb => do
      let f ← s.ptns[k]?
      let (alloc, chan) ← fsFormat C sb f.ptn s.alloc s.chan
      some { s with alloc, chan }
  | .mount k => do
      let f ← s.ptns[k]?
      let r ← fsMount C f s.root s.inodeMax s.alloc s.chan
      some ⟨r.alloc, r.chan, s.ptns.set k r.ptn, r.root, r.inodeMax⟩
  | .unmount k => do
      let f ← s.ptns[k]?
      some { s with root := RootDir.fsUnmount s.root f.name }

variable (A) in
/-- The bitmaps of the partitions are freed by no one else. -/
def Permitted (s : State σ) : Event σ → Prop
  | .others alloc _ => ∀ f ∈ s.ptns, f.blkBtmp.bits ∈ A.blocks s.alloc → f.blkBtmp.bits ∈ A.blocks alloc
  | _ => True

variable (A) in
/-- A partition's block bitmap is NULL before the first mount and a block afterwards. -/
def Stale (s : State σ) : Prop := ∀ f ∈ s.ptns, f.blkBtmp.bits = 0 ∨ f.blkBtmp.bits ∈ A.blocks s.alloc

theorem format_keeps {s s' : State σ} {k sb : Nat} (moved : step A.toCalls s (.format k sb) = some s') :
    A.blocks s'.alloc = A.blocks s.alloc ∧ s'.ptns = s.ptns := by
  simp only [step, Option.bind_eq_bind, Option.bind_eq_some_iff] at moved
  obtain ⟨f, -, ⟨alloc, chan⟩, formatted, moved⟩ := moved
  obtain ⟨alloc', chan', formatted', blocks⟩ := fsFormat_blocks (A := A) sb f.ptn s.alloc s.chan
  rw [formatted] at formatted'
  cases formatted'
  cases moved
  exact ⟨blocks, rfl⟩

theorem unmount_keeps {s s' : State σ} {k : Nat} (moved : step A.toCalls s (.unmount k) = some s') :
    s'.alloc = s.alloc ∧ s'.ptns = s.ptns := by
  simp only [step, Option.bind_eq_bind, Option.bind_eq_some_iff] at moved
  obtain ⟨f, -, moved⟩ := moved
  cases moved
  exact ⟨rfl, rfl⟩

theorem Stale.step {s s' : State σ} {e : Event σ} (stale : Stale A s) (permitted : Permitted A s e)
    (moved : step A.toCalls s e = some s') : Stale A s' := by
  cases e with
  | others alloc chan =>
    cases moved
    intro f member
    rcases stale f member with null | block
    · exact .inl null
    · exact .inr (permitted f member block)
  | format k sb =>
    obtain ⟨blocks, ptns⟩ := format_keeps moved
    unfold Stale
    rwa [blocks, ptns]
  | mount k =>
    simp only [FsMount.step, Option.bind_eq_bind, Option.bind_eq_some_iff] at moved
    obtain ⟨f, at_, r, ran, moved⟩ := moved
    cases moved
    obtain ⟨name, iNo, mounted, outcome, course⟩ := fsMount_course (A := A) f s.root s.inodeMax s.alloc s.chan
    rw [outcome] at ran
    obtain ⟨root, -, rfl⟩ := Option.map_eq_some_iff.mp ran
    intro g member
    rcases List.mem_or_eq_of_mem_set member with old | rfl
    · rcases stale g old with null | block
      · exact .inl null
      · exact .inr ((course root).kept block)
    · exact (course root).blkBits
  | unmount k =>
    obtain ⟨alloc, ptns⟩ := unmount_keeps moved
    unfold Stale
    rwa [alloc, ptns]

/-- Whatever was mounted before, formatting a partition and mounting it leaves its inode bitmap in the
wrong place. -/
theorem reach_misread {s₀ s : State σ} {k sb : Nat} {f : FsPtn} (start : ∀ f ∈ s₀.ptns, f.blkBtmp.bits = 0)
    (run : Reach (step A.toCalls) (Permitted A) s₀ s) (at_ : s.ptns[k]? = some f) (room : live s.root.blk < s.root.blk.length) :
    ∃ alloc chan r, fsFormat A.toCalls sb f.ptn s.alloc s.chan = some (alloc, chan) ∧
      fsMount A.toCalls f s.root s.inodeMax alloc chan = some r ∧ ¬RoundTrip A r := by
  have stale : Stale A s := Reach.invariant (fun _ _ _ => Stale.step) (fun f member => .inl (start f member)) run
  obtain ⟨alloc, chan, formatted, blocks⟩ := fsFormat_blocks (A := A) sb f.ptn s.alloc s.chan
  obtain ⟨name, iNo, mounted, outcome, course⟩ := fsMount_course (A := A) f s.root s.inodeMax alloc chan
  obtain ⟨root, added⟩ := addToDir_room name iNo room
  rw [added] at outcome
  refine ⟨alloc, chan, _, formatted, outcome, ?_⟩
  apply (course _).misread
  rw [blocks]
  exact stale f (List.mem_of_getElem? at_)

/-! An allocator that hands out ascending addresses. -/

structure Bump where
  mem : Memory
  next : Nat
  given : List Nat
  positive : 0 < next
  below : ∀ p ∈ given, 0 < p ∧ p < next

def Bump.malloc (s : Bump) (n : Nat) : Nat × Bump :=
  (s.next,
    { mem := s.mem
      next := s.next + n + 1
      given := s.next :: s.given
      positive := Nat.succ_pos _
      below := by
        intro p member
        rcases List.mem_cons.mp member with rfl | old
        · exact ⟨s.positive, by omega⟩
        · have bound := s.below p old
          exact ⟨bound.1, by omega⟩ })

def Bump.free (s : Bump) (p : Nat) : Bump :=
  { s with
    given := s.given.filter (· ≠ p)
    below := fun q member => s.below q (List.mem_filter.mp member).1 }

def bump : Allocator Bump where
  mem := Bump.mem
  setMem s m := { s with mem := m }
  sysMalloc := Bump.malloc
  sysFree s p := some (s.free p)
  blocks s := {p | p ∈ s.given}
  null_free s member := absurd (s.below 0 member).1 (Nat.lt_irrefl 0)
  malloc_new s _ member := absurd (s.below s.next member).2 (Nat.lt_irrefl _)
  malloc_blocks := by
    intro s n p
    have positive := s.positive
    change p ∈ s.next :: s.given ↔ p ∈ s.given ∨ p = s.next ∧ p ≠ 0
    rw [List.mem_cons]
    constructor
    · rintro (rfl | old)
      · exact .inr ⟨rfl, by omega⟩
      · exact .inl old
    · rintro (old | new)
      · exact .inr old
      · exact .inl new.1
  free_blocks := by
    intro s p
    refine ⟨s.free p, rfl, ?_⟩
    intro q
    change q ∈ s.given.filter (· ≠ p) ↔ q ∈ s.given ∧ q ≠ p
    rw [List.mem_filter, decide_eq_true_iff]
  write_blocks _ _ := rfl

/-- A partition of 1000 sectors as the partition scan leaves it. -/
def scanned : FsPtn where
  ptn := ⟨⟨0⟩, 63, 1000⟩
  name := [0x73, 0x64, 0x61, 0x5F, 0x31]
  inodeBase := 0
  inodeCnt := 0
  inodeBtmpLba := 0
  inodeBtmp := ⟨0, 0⟩
  inodeTableLba := 0
  blkBtmpLba := 0
  blkBtmp := ⟨0, 0⟩
  blkLba := 0

def unmounted : State Bump where
  alloc := ⟨fun _ => 0, 0xC0200000, [], by decide, fun _ none => absurd none List.not_mem_nil⟩
  chan := countingDrive
  ptns := [scanned]
  root := rootDirInit
  inodeMax := 0

theorem unmounted_misread :
    ∃ alloc chan r, fsFormat bump.toCalls 0xC0100000 scanned.ptn unmounted.alloc unmounted.chan = some (alloc, chan) ∧
      fsMount bump.toCalls scanned unmounted.root unmounted.inodeMax alloc chan = some r ∧ ¬RoundTrip bump r :=
  reach_misread (k := 0) (by decide) (Reach.refl unmounted) rfl (by decide)

/-- Formatted and mounted for the first time: the inode bitmap is read to address 0. -/
theorem first_mount_reads_to_null :
    ¬∀ alloc chan r, fsFormat bump.toCalls 0xC0100000 scanned.ptn unmounted.alloc unmounted.chan = some (alloc, chan) →
      fsMount bump.toCalls scanned rootDirInit 0 alloc chan = some r → RoundTrip bump r := by
  intro always
  obtain ⟨alloc, chan, formatted, -⟩ := fsFormat_blocks (A := bump) 0xC0100000 scanned.ptn unmounted.alloc unmounted.chan
  obtain ⟨name, iNo, mounted, outcome, course⟩ := fsMount_course (A := bump) scanned rootDirInit 0 alloc chan
  obtain ⟨root, added⟩ := addToDir_room name iNo (show live rootDirInit.blk < rootDirInit.blk.length by decide)
  rw [added] at outcome
  exact (course _).misread (.inl rfl) (always alloc chan _ formatted outcome)

end KOS.FsMount
