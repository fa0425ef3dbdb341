import KOS.FsBuffer
import KOS.FsMount

/-! `fs_mount` and `fs_format` on a heap that its clients have kept whole: the blocks they take, and that what they
write is theirs. -/

namespace KOS.FsHeap
open KOS.ByteMemory KOS.LinkMemory KOS.Ata KOS.Ide KOS.IdeRead KOS.FsLayout KOS.FsMount KOS.Clients
open KOS.Fs hiding fsFormat
open KOS.FsBuffer (BufOp Fits execAll exec_frame fsFormat_eq_execAll)
open KOS.Heap (pageCnt)
open KOS.HeapLayout (MAX_SIZE)
open KOS.RootDir (Root addToDir)

variable {σ : Type} {H : ClientHeap σ} {s s' s'' : σ} {S : Set Nat} {n : Nat}

/-- Nothing has happened but a write to bytes of the clients. -/
structure Written (H : ClientHeap σ) (S : Set Nat) (s s' : σ) : Prop where
  set : ∃ m, s' = H.setMem s m
  whole : ∀ n, H.whole s n → H.whole s' n
  changes : ChangesOnly S (H.mem s) (H.mem s')

theorem Written.live (written : Written H S s s') : H.live s' = H.live s := by
  obtain ⟨m, rfl⟩ := written.set
  exact H.write_live s m

theorem Written.frames (written : Written H S s s') : H.frames s' = H.frames s := by
  obtain ⟨m, rfl⟩ := written.set
  exact H.write_frames s m

theorem setMem_written {m : Memory} (inside : S ⊆ own H.static (H.live s)) (changes : ChangesOnly S (H.mem s) m) :
    Written H S s (H.setMem s m) where
  set := ⟨m, rfl⟩
  whole n whole := H.write_whole s m n whole (changes.mono inside)
  changes := by
    rw [H.write_mem]
    exact changes

theorem readSectors_written (hd : IdeHd) (lba : Nat) {dst cnt : Nat} (s : σ) (c : Channel) (one : cnt ≤ 256)
    (fits : dst + 512 * cnt ≤ 2 ^ 32) (inside : bytes (dst, 512 * cnt) ⊆ own H.static (H.live s)) :
    ∃ s' c', readSectors H.toCalls hd lba dst cnt s c = some (s', c') ∧ c'.disk = c.disk ∧
      Written H (bytes (dst, 512 * cnt)) s s' ∧
        H.mem s' = fill (H.mem s) dst (512 * cnt) (Channel.byteOf c.disk hd.drive (lba % 2 ^ 28)) := by
  obtain ⟨c', read, disk⟩ := ideRead_fills hd lba dst (H.mem s) c one
  refine ⟨_, c', ?_, disk, setMem_written inside (fill_changes _ _ fits), H.write_mem s _⟩
  rw [readSectors, read]
  rfl

/-- A buffer shows the super block that its sector holds. -/
theorem loadSuperBlock_filled (m : Memory) {dst : Nat} (disk : Fin 2 → Nat → Sector) (d : Fin 2) {lba : Nat}
    (low : lba < 2 ^ 28) :
    loadSuperBlock (fill m dst (512 * 1) (Channel.byteOf disk d (lba % 2 ^ 28))) dst = superBlockOf (disk d lba) := by
  apply loadSuperBlock_congr
  intro k inside
  rw [load_fill m dst (512 * 1) _ (by decide) k (by omega), if_pos (by omega), Channel.byteOf, Nat.mod_eq_of_lt low]
  have lane : (0 + k) % 2 ^ 32 % 512 = k := by omega
  have sector : lba + k / 512 = lba := by omega
  simp only [load, image, Fin.ofNat, lane, sector]
  congr 1
  exact Fin.ext (by dsimp only; omega)

theorem loadSuperBlock_kept {m m' : Memory} {sb : Nat} (fits : sb + 512 ≤ 2 ^ 32) (kept : ∀ a ∈ bytes (sb, 512), m' a = m a) :
    loadSuperBlock m' sb = loadSuperBlock m sb := by
  apply loadSuperBlock_congr
  intro k inside
  have address : (sb + k) % 2 ^ 32 = sb + k := Nat.mod_eq_of_lt (by omega)
  unfold load
  rw [address]
  exact kept (sb + k) ⟨Nat.le_add_right sb k, Nat.add_lt_add_left (by omega) sb⟩

/-! The blocks of a mount. -/

/-- What a call of `sys_malloc` adds to the blocks. -/
def granted (p size : Nat) : List (Nat × Nat) := if p = 0 then [] else [(p, size)]

variable {size k : Nat}

theorem malloc_live (limit : size ≤ MAX_SIZE) (whole : H.whole s (pagesFor size + k)) :
    H.live (H.sysMalloc s size).2 = granted (H.sysMalloc s size).1 size ++ H.live s := by
  unfold granted
  by_cases null : (H.sysMalloc s size).1 = 0
  · rw [if_pos null, H.malloc_null s size k limit whole null]
    rfl
  · rw [if_neg null, H.malloc_some s size k limit whole null]
    rfl

/-- The bytes are a client's, and not of the block `p`. -/
structure Spare (H : ClientHeap σ) (s : σ) (p : Nat) (b : Nat × Nat) : Prop where
  fits : b.1 + b.2 ≤ 2 ^ 32
  others : ∀ a ∈ bytes b, a ∈ H.static ∨ ∃ c ∈ H.live s, c.1 ≠ p ∧ a ∈ bytes c

variable {p : Nat} {b : Nat × Nat}

theorem Spare.own (spare : Spare H s p b) : bytes b ⊆ own H.static (H.live s) := by
  intro a inside
  rcases spare.others a inside with low | ⟨c, live, -, within⟩
  · exact .inl low
  · exact .inr ⟨c, live, within⟩

theorem Spare.away (spare : Spare H s p b) (whole : H.whole s k) (live : (p, size) ∈ H.live s) :
    ∀ a ∈ bytes (p, size), a ∉ bytes b := by
  intro a inside within
  rcases spare.others a within with low | ⟨c, live', other, within'⟩
  · exact H.apart_static s k whole _ live a inside low
  · exact H.apart s k whole _ live c live' other.symm a inside within'

theorem Spare.mono (spare : Spare H s p b) (more : ∀ c ∈ H.live s, c ∈ H.live s') : Spare H s' p b := by
  refine ⟨spare.fits, ?_⟩
  intro a inside
  rcases spare.others a inside with low | ⟨c, live, other, within⟩
  · exact .inl low
  · exact .inr ⟨c, more c live, other, within⟩

/-- A new block is spare. -/
theorem malloc_spare (limit : size ≤ MAX_SIZE) (whole : H.whole s (pagesFor size + k)) (live : (p, n) ∈ H.live s)
    (some : (H.sysMalloc s size).1 ≠ 0) : Spare H (H.sysMalloc s size).2 p ((H.sysMalloc s size).1, size) := by
  have added := H.malloc_some s size k limit whole some
  have new := H.malloc_new s size k limit whole (p, n) live
  have member : ((H.sysMalloc s size).1, size) ∈ H.live (H.sysMalloc s size).2 := by
    rw [added]
    exact List.mem_cons_self
  refine ⟨(H.fits _ k (H.malloc_whole s size k limit whole) _ member).2, ?_⟩
  intro a inside
  exact .inr ⟨_, member, new.symm, inside⟩

/-- A call of `sys_malloc`, and sectors read to what is not the super block's buffer. -/
theorem malloc_readSectors (hd : IdeHd) (lba : Nat) {dst cnt : Nat} (c : Channel) (limit : size ≤ MAX_SIZE)
    (whole : H.whole s (pagesFor size + k)) (super : (p, 512) ∈ H.live s) (one : cnt ≤ 256)
    (spare : Spare H (H.sysMalloc s size).2 p (dst, 512 * cnt)) :
    ∃ s' c', readSectors H.toCalls hd lba dst cnt (H.sysMalloc s size).2 c = some (s', c') ∧ c'.disk = c.disk ∧
      Written H (bytes (dst, 512 * cnt)) (H.sysMalloc s size).2 s' ∧
        loadSuperBlock (H.mem (H.sysMalloc s size).2) p = loadSuperBlock (H.mem s) p ∧
          loadSuperBlock (H.mem s') p = loadSuperBlock (H.mem s) p := by
  obtain ⟨s', c', read, disk, written, -⟩ :=
    readSectors_written hd lba (H.sysMalloc s size).2 c one spare.fits spare.own
  have fits : p + 512 ≤ 2 ^ 32 := (H.fits s _ whole _ super).2
  have later := H.malloc_whole s size k limit whole
  have still : (p, 512) ∈ H.live (H.sysMalloc s size).2 := by
    rw [malloc_live limit whole]
    exact List.mem_append_right _ super
  have first := loadSuperBlock_kept fits (H.malloc_kept s size k limit whole _ super)
  have second := loadSuperBlock_kept fits (fun a inside => written.changes a (spare.away later still a inside))
  exact ⟨s', c', read, disk, written, first, second.trans first⟩

/-- The heap when the inode bitmap's buffer is asked for, and when the block bitmap's is. -/
structure Opened (H : ClientHeap σ) (s s1 s2 : σ) : Prop where
  super : ∃ S, Written H S (H.sysMalloc s 512).2 s1
  inode : ∃ S, Written H S (H.sysMalloc s1 512).2 s2

theorem Written.room (written : Written H S s s') (room : H.Room s n) : H.Room s' n :=
  ⟨written.whole n room.1, by rw [written.frames]; exact room.2⟩

theorem Opened.room {s1 s2 : σ} (opened : Opened H s s1 s2) (room : H.Room s (pagesFor 512 + (pagesFor 512 + n))) :
    H.Room s2 n := by
  have limit : 512 ≤ MAX_SIZE := by decide
  obtain ⟨⟨S, written1⟩, S', written2⟩ := opened
  have room1 := written1.room (room.malloc limit).2.2
  exact written2.room (room1.malloc limit).2.2

/-- The blocks that were out are out when the bitmaps' buffers are asked for. -/
theorem Opened.live {s1 s2 : σ} (opened : Opened H s s1 s2) (whole : H.whole s (pagesFor 512 + k))
    (whole1 : H.whole s1 (pagesFor 512 + n)) : ∀ b ∈ H.live s, b ∈ H.live s1 ∧ b ∈ H.live s2 := by
  have limit : 512 ≤ MAX_SIZE := by decide
  obtain ⟨⟨S, written1⟩, S', written2⟩ := opened
  intro b member
  have first : b ∈ H.live s1 := by
    rw [written1.live, malloc_live limit whole]
    exact List.mem_append_right _ member
  refine ⟨first, ?_⟩
  rw [written2.live, malloc_live limit whole1]
  exact List.mem_append_right _ first

/-- What a mount of `f` leaves, once it has its entry. -/
structure Entered (f : FsPtn) (c : Channel) (base : Nat) (alloc : σ) (root : Root) (r : Mounted σ) : Prop where
  alloc : r.alloc = alloc
  root : r.root = root
  disk : r.chan.disk = c.disk
  ptn : r.ptn.ptn = f.ptn
  name : r.ptn.name = f.name
  base : r.ptn.inodeBase = base
  inodeRead : ∃ lba cnt, r.reads[1]? = some ⟨lba, f.blkBtmp.bits, cnt⟩
  inodeBits : r.ptn.inodeBtmp.bits ≠ 0 → r.ptn.inodeBtmp.bits ≠ f.blkBtmp.bits

/-- Where `fs_mount` may write: the bytes behind the block bitmap's pointer are a client's. -/
def Stale (H : ClientHeap σ) (s : σ) (bits : Nat) : Prop :=
  bits = 0 ∧ bytes (0, 512) ⊆ H.static ∨ ∃ b ∈ H.live s, b.1 = bits ∧ 512 ≤ b.2

theorem Stale.spare {bits : Nat} (stale : Stale H s bits) (whole : H.whole s k) (new : ∀ b ∈ H.live s, b.1 ≠ p)
    (more : ∀ c ∈ H.live s, c ∈ H.live s') : Spare H s' p (bits, 512 * 1) := by
  rcases stale with ⟨rfl, low⟩ | ⟨b, live, rfl, room⟩
  · exact ⟨by decide, fun a inside => .inl (low inside)⟩
  · have fits := (H.fits s k whole b live).2
    refine ⟨by dsimp only; omega, ?_⟩
    rintro a ⟨first, last⟩
    exact .inr ⟨b, more b live, new b live, first, by dsimp only at last; omega⟩

/-- What a mount does to the heap: `s1` and `s2` are the heaps when the bitmaps' buffers are asked for. -/
structure Mount (H : ClientHeap σ) (f : FsPtn) (n : Nat) (s s1 s2 s' : σ) : Prop where
  opened : Opened H s s1 s2
  inode : H.whole s1 (pagesFor 512 + (pagesFor (bufSize f.ptn) + n))
  blk : H.whole s2 (pagesFor (bufSize f.ptn) + n)
  whole : H.whole s' n
  frames : H.frames (H.sysMalloc s2 (bufSize f.ptn)).2 ≤ H.frames s'
  live : H.live s' = granted (H.sysMalloc s2 (bufSize f.ptn)).1 (bufSize f.ptn) ++
    (granted (H.sysMalloc s1 512).1 512 ++ H.live s)

theorem granted_other {q : Nat} (new : p ≠ q) : (granted p size).filter (·.1 ≠ q) = granted p size := by
  unfold granted
  split_ifs
  · rfl
  · exact List.filter_eq_self.mpr (fun c member => by rw [List.mem_singleton.mp member]; exact decide_eq_true new)

variable {f : FsPtn} {c : Channel}

theorem bufSize_limit (ptn : IdePtn) : bufSize ptn ≤ MAX_SIZE := by
  have few := blkBtmpSec_le ptn
  unfold bufSize word SECTOR_SIZE MAX_SIZE KOS.Heap.ARENA_SIZE KOS.Paging.PG_SIZE
  omega

/-- The first part of `fs_mount`: the super block is in its buffer. -/
theorem readSuper_runs (ptn : IdePtn) (c : Channel) (whole : H.whole s (pagesFor 512 + k)) (some' : (H.sysMalloc s 512).1 ≠ 0)
    (low : ptn.startLba + 1 < 2 ^ 28) :
    ∃ s' c', readSectors H.toCalls ptn.hd (word (ptn.startLba + 1)) (H.sysMalloc s 512).1 1 (H.sysMalloc s 512).2 c =
        some (s', c') ∧ c'.disk = c.disk ∧ Written H (bytes ((H.sysMalloc s 512).1, 512 * 1)) (H.sysMalloc s 512).2 s' ∧
          loadSuperBlock (H.mem s') (H.sysMalloc s 512).1 = superBlockOf (c.disk ptn.hd.drive (ptn.startLba + 1)) := by
  have limit : 512 ≤ MAX_SIZE := by decide
  have added := H.malloc_some s 512 k limit whole some'
  have member : ((H.sysMalloc s 512).1, 512 * 1) ∈ H.live (H.sysMalloc s 512).2 := by
    rw [added]
    exact List.mem_cons_self
  have fits := (H.fits _ k (H.malloc_whole s 512 k limit whole) _ member).2
  obtain ⟨s', c', read, disk, written, filled⟩ :=
    readSectors_written ptn.hd (word (ptn.startLba + 1)) (H.sysMalloc s 512).2 c (by decide : 1 ≤ 256) fits
      (fun a inside => .inr ⟨_, member, inside⟩)
  refine ⟨s', c', read, disk, written, ?_⟩
  have address : word (ptn.startLba + 1) = ptn.startLba + 1 := Nat.mod_eq_of_lt (by omega)
  rw [filled, address]
  exact loadSuperBlock_filled _ c.disk ptn.hd.drive low

theorem setInode_runs {sb : Nat} (c : Channel) (whole : H.whole s (pagesFor 512 + k)) (super : (sb, 512) ∈ H.live s)
    (shown : loadSuperBlock (H.mem s) sb = superBlock f.ptn)
    (spare : Spare H (H.sysMalloc s 512).2 sb (f.blkBtmp.bits, 512 * 1)) :
    ∃ f' lba cnt s' c', setInode H.toCalls sb f s c = some (f', ⟨lba, f.blkBtmp.bits, cnt⟩, s', c') ∧ f'.ptn = f.ptn ∧
      f'.name = f.name ∧ f'.inodeBase = f.inodeBase ∧ f'.inodeBtmp.bits = (H.sysMalloc s 512).1 ∧ c'.disk = c.disk ∧
        (∃ S, Written H S (H.sysMalloc s 512).2 s') ∧ loadSuperBlock (H.mem s') sb = superBlock f.ptn := by
  have sectors : (superBlock f.ptn).inodeBtmpSec = 1 := rfl
  have size : word (1 * SECTOR_SIZE) = 512 := rfl
  obtain ⟨s', c', read, disk, written, first, second⟩ := malloc_readSectors f.ptn.hd (superBlock f.ptn).inodeBtmpLba
    c (by decide : 512 ≤ MAX_SIZE) whole super (by decide : 1 ≤ 256) spare
  rw [shown] at first second
  unfold setInode
  simp only [shown, sectors, size, first, read]
  exact ⟨_, _, _, s', c', rfl, rfl, rfl, rfl, rfl, disk, ⟨_, written⟩, second⟩

theorem setBlock_runs {sb : Nat} (c : Channel) (whole : H.whole s (pagesFor (bufSize f.ptn) + k))
    (super : (sb, 512) ∈ H.live s) (shown : loadSuperBlock (H.mem s) sb = superBlock f.ptn)
    (taken : (H.sysMalloc s (bufSize f.ptn)).1 ≠ 0 ∨ bytes (0, bufSize f.ptn) ⊆ H.static) :
    ∃ f' r s' c', setBlock H.toCalls sb f s c = some (f', r, s', c') ∧ f'.ptn = f.ptn ∧ f'.name = f.name ∧
      f'.inodeBase = f.inodeBase ∧ f'.inodeBtmp = f.inodeBtmp ∧ c'.disk = c.disk ∧ (∃ S, Written H S (H.sysMalloc s (bufSize f.ptn)).2 s') ∧
        loadSuperBlock (H.mem s') sb = superBlock f.ptn := by
  have few := blkBtmpSec_le f.ptn
  have sectors : bufSize f.ptn = 512 * (superBlock f.ptn).blkBtmpSec := by
    unfold bufSize word SECTOR_SIZE
    omega
  have limit : bufSize f.ptn ≤ MAX_SIZE := by
    rw [sectors]
    exact (Nat.mul_le_mul_left 512 few).trans (by decide)
  have spare : Spare H (H.sysMalloc s (bufSize f.ptn)).2 sb ((H.sysMalloc s (bufSize f.ptn)).1,
      512 * (superBlock f.ptn).blkBtmpSec) := by
    rw [← sectors]
    by_cases null : (H.sysMalloc s (bufSize f.ptn)).1 = 0
    · have low := taken.resolve_left (not_not_intro null)
      rw [null]
      exact ⟨by dsimp only; omega, fun a inside => .inl (low inside)⟩
    · exact malloc_spare limit whole super null
  obtain ⟨s', c', read, disk, written, first, second⟩ := malloc_readSectors f.ptn.hd (superBlock f.ptn).blkBtmpLba
    c limit whole super few spare
  rw [shown] at first second
  unfold setBlock
  have size : word ((superBlock f.ptn).blkBtmpSec * SECTOR_SIZE) = bufSize f.ptn := rfl
  simp only [shown, size, first, read]
  exact ⟨_, _, s', c', rfl, rfl, rfl, rfl, rfl, disk, ⟨_, written⟩, second⟩

/-- `fs_mount` of a formatted partition. Only the entry in the root directory can be missing at the end. -/
theorem fsMount_runs (root : Root) (inodeMax : Nat) (whole : H.whole s (pagesFor 512 + (pagesFor 512 + (pagesFor (bufSize f.ptn) + n))))
    (some' : (H.sysMalloc s 512).1 ≠ 0) (low : f.ptn.startLba + 1 < 2 ^ 28)
    (formatted : superBlockOf (c.disk f.ptn.hd.drive (f.ptn.startLba + 1)) = superBlock f.ptn)
    (stale : Stale H s f.blkBtmp.bits)
    (taken : ∀ s1 s2, Opened H s s1 s2 → (H.sysMalloc s2 (bufSize f.ptn)).1 ≠ 0 ∨ bytes (0, bufSize f.ptn) ⊆ H.static) :
    ∃ s1 s2 s' base mounted, Mount H f n s s1 s2 s' ∧
      fsMount H.toCalls f root inodeMax s c = (addToDir root f.name base).map mounted ∧
        ∀ root', Entered f c base s' root' (mounted root') := by
  have limit : 512 ≤ MAX_SIZE := by decide
  obtain ⟨s1, c1, read1, disk1, written1, shown1⟩ := readSuper_runs f.ptn c whole some' low
  rw [formatted] at shown1
  have live1 := written1.live
  rw [H.malloc_some s 512 _ limit whole some'] at live1
  have whole1 := written1.whole _ (H.malloc_whole s 512 _ limit whole)
  have new := H.malloc_new s 512 _ limit whole
  have super1 : ((H.sysMalloc s 512).1, 512) ∈ H.live s1 := by
    rw [live1]
    exact List.mem_cons_self
  have more1 : ∀ b ∈ H.live s, b ∈ H.live (H.sysMalloc s1 512).2 := by
    intro b member
    rw [malloc_live limit whole1, live1]
    exact List.mem_append_right _ (List.mem_cons_of_mem _ member)
  obtain ⟨f2, lba2, cnt2, s2, c2, inode, ptn2, name2, base2, bits2, disk2, ⟨S, written2⟩, shown2⟩ :=
    setInode_runs c1 whole1 super1 shown1 (stale.spare whole new more1)
  have live2 := written2.live
  rw [malloc_live limit whole1, live1] at live2
  have whole2 := written2.whole _ (H.malloc_whole s1 512 _ limit whole1)
  have super2 : ((H.sysMalloc s 512).1, 512) ∈ H.live s2 := by
    rw [live2]
    exact List.mem_append_right _ List.mem_cons_self
  have opened : Opened H s s1 s2 := ⟨⟨_, written1⟩, S, written2⟩
  rw [← ptn2] at shown2 whole2 taken
  have limit2 : bufSize f2.ptn ≤ MAX_SIZE := bufSize_limit f2.ptn
  obtain ⟨f3, r3, s3, c3, block, ptn3, name3, base3, inode3, disk3, ⟨S', written3⟩, shown3⟩ :=
    setBlock_runs c2 whole2 super2 shown2 (taken s1 s2 opened)
  have live3 := written3.live
  rw [malloc_live limit2 whole2, live2] at live3
  have super3 : ((H.sysMalloc s 512).1, 512) ∈ H.live s3 := by
    rw [live3]
    exact List.mem_append_right _ (List.mem_append_right _ List.mem_cons_self)
  obtain ⟨s4, freed, whole4, frames, live4, -⟩ :=
    H.free_runs s3 n (written3.whole n (H.malloc_whole s2 _ n limit2 whole2)) _ super3
  have apart2 := H.malloc_new s1 512 _ limit whole1 _ super1
  have apart3 := H.malloc_new s2 _ n limit2 whole2 _ super2
  have left : H.live s4 = granted (H.sysMalloc s2 (bufSize f2.ptn)).1 (bufSize f2.ptn) ++
      (granted (H.sysMalloc s1 512).1 512 ++ H.live s) := by
    have old : (H.live s).filter (·.1 ≠ (H.sysMalloc s 512).1) = H.live s :=
      List.filter_eq_self.mpr (fun b member => decide_eq_true (new b member))
    rw [live4, live3, List.filter_append, List.filter_append, List.filter_cons_of_neg (by simp),
      granted_other apart3.symm, granted_other apart2.symm, old]
  rw [written3.frames] at frames
  have mount : Mount H f n s s1 s2 s4 := by
    rw [ptn2] at whole2 frames left
    exact ⟨opened, whole1, whole2, whole4, frames, left⟩
  have elsewhere : (H.sysMalloc s1 512).1 ≠ 0 → (H.sysMalloc s1 512).1 ≠ f.blkBtmp.bits := by
    intro some2
    rcases stale with ⟨null, -⟩ | ⟨b, live, same, -⟩
    · rwa [null]
    · rw [← same]
      refine (H.malloc_new s1 512 _ limit whole1 b ?_).symm
      rw [live1]
      exact List.mem_cons_of_mem _ live
  have size : SIZEOF_SUPER_BLOCK = 512 := rfl
  unfold fsMount
  simp only [size, read1, inode, block, freed, Option.bind_eq_bind, Option.bind_some, name3.trans name2]
  refine ⟨s1, s2, s4, _, _, mount, (Option.map_eq_bind ..).symm, ?_⟩
  intro root'
  constructor
  · rfl
  · rfl
  · exact disk3.trans (disk2.trans disk1)
  · exact ptn3.trans ptn2
  · rfl
  · rfl
  · exact ⟨lba2, cnt2, rfl⟩
  · change f3.inodeBtmp.bits ≠ 0 → f3.inodeBtmp.bits ≠ f.blkBtmp.bits
    rw [inode3, bits2]
    exact elsewhere

/-- With the pages there, a mount only adds blocks. -/
theorem fsMount_room (root : Root) (inodeMax : Nat)
    (room : H.Room s (pagesFor 512 + (pagesFor 512 + (pagesFor (bufSize f.ptn) + n)))) (low : f.ptn.startLba + 1 < 2 ^ 28)
    (formatted : superBlockOf (c.disk f.ptn.hd.drive (f.ptn.startLba + 1)) = superBlock f.ptn)
    (stale : Stale H s f.blkBtmp.bits) :
    ∃ s' new base mounted, H.Room s' n ∧ H.live s' = new ++ H.live s ∧
      fsMount H.toCalls f root inodeMax s c = (addToDir root f.name base).map mounted ∧
        ∀ root', Entered f c base s' root' (mounted root') := by
  have third : ∀ s1 s2, Opened H s s1 s2 → (H.sysMalloc s2 (bufSize f.ptn)).1 ≠ 0 ∧
      n ≤ H.frames (H.sysMalloc s2 (bufSize f.ptn)).2 := by
    intro s1 s2 opened
    obtain ⟨some', -, left⟩ := (opened.room room).malloc (bufSize_limit f.ptn)
    exact ⟨some', left.2⟩
  obtain ⟨s1, s2, s', base, mounted, mount, ran, entered⟩ := fsMount_runs root inodeMax room.1 (room.malloc (by decide)).1 low
    formatted stale (fun s1 s2 opened => .inl (third s1 s2 opened).1)
  have left := (third s1 s2 mount.opened).2.trans mount.frames
  exact ⟨s', _, base, mounted, ⟨mount.whole, left⟩, mount.live.trans (List.append_assoc ..).symm, ran, entered⟩

/-! `fs_format`. -/

/-- The fields of the super block are ten words. -/
theorem storeSuperBlock_changes (m : Memory) {sb : Nat} (sblk : SuperBlock) (fits : sb + 512 ≤ 2 ^ 32) :
    ChangesOnly (bytes (sb, 512)) m (storeSuperBlock m sb sblk) := by
  have word : ∀ (m : Memory) {k : Nat} (v : Nat), k ≤ 36 → ChangesOnly (bytes (sb, 512)) m (store32 m (sb + k) v) := by
    intro m k v inside
    apply (fill_changes m _ (show sb + k + 4 ≤ 2 ^ 32 by omega)).mono
    exact Set.Ico_subset_Ico (Nat.le_add_right sb k) (show sb + k + 4 ≤ sb + 512 by omega)
  unfold storeSuperBlock
  apply (word m (k := 0) _ (by decide)).trans
  apply (word _ (k := 4) _ (by decide)).trans
  apply (word _ (k := 8) _ (by decide)).trans
  apply (word _ (k := 12) _ (by decide)).trans
  apply (word _ (k := 16) _ (by decide)).trans
  apply (word _ (k := 20) _ (by decide)).trans
  apply (word _ (k := 24) _ (by decide)).trans
  apply (word _ (k := 28) _ (by decide)).trans
  apply (word _ (k := 32) _ (by decide)).trans
  exact word _ (k := 36) _ (by decide)

/-- Operations that fit change bytes of the buffer only. -/
theorem execAll_changes {hd : IdeHd} {buf : Nat} {ops : List BufOp} {m : Memory} {c : Channel} {r : Memory × Channel}
    (fit : ∀ op ∈ ops, Fits size op) (fits : buf + size ≤ 2 ^ 32) (ran : execAll hd buf ops m c = some r) :
    ChangesOnly (bytes (buf, size)) m r.1 := by
  induction ops generalizing m c with
  | nil =>
    cases ran
    exact ChangesOnly.refl _ m
  | cons op rest ih =>
    obtain ⟨q, first, later⟩ := Option.bind_eq_some_iff.mp ran
    have one : ChangesOnly (bytes (buf, size)) m q.1 := by
      intro x outside
      apply exec_frame first
      intro o inside
      have below : o < size := fit op List.mem_cons_self inside
      rw [Nat.mod_eq_of_lt (by omega)]
      rintro rfl
      exact outside ⟨Nat.le_add_right buf o, Nat.add_lt_add_left below buf⟩
    exact one.trans (ih (fun op' member => fit op' (List.mem_cons_of_mem op member)) later)

theorem fsFormat_changes {taken : Memory × Nat} {sb : Nat} {ptn : IdePtn} {m m' : Memory} {c c' : Channel}
    (inside : FsBuffer.Inside ptn) (fits : taken.2 + bufSize ptn ≤ 2 ^ 32)
    (ran : Fs.fsFormat (fun _ _ => taken) (fun m _ => m) sb ptn m c = some (m', c')) :
    ChangesOnly (bytes (taken.2, bufSize ptn)) taken.1 m' := by
  rw [fsFormat_eq_execAll] at ran
  obtain ⟨c1, -, rest⟩ := Option.bind_eq_some_iff.mp ran
  obtain ⟨r, ops, equal⟩ := Option.map_eq_some_iff.mp rest
  cases equal
  exact execAll_changes inside fits ops

/-- `fs_format` of a partition for which it keeps to its buffer: every block is as before. -/
theorem fsFormat_runs (sb : Nat) {ptn : IdePtn} (c : Channel) (room : H.Room s (pagesFor (bufSize ptn) + n))
    (inside : FsBuffer.Inside ptn) (fits : sb + 512 ≤ 2 ^ 32) (low : bytes (sb, 512) ⊆ H.static) (large : 516 ≤ ptn.secCnt)
    (end_ : ptn.startLba + ptn.secCnt ≤ 2 ^ 28) :
    ∃ s' c', FsMount.fsFormat H.toCalls sb ptn s c = some (s', c') ∧ H.live s' = H.live s ∧ H.Room s' n ∧
      Confined ptn c.disk c'.disk ∧ superBlockOf (c'.disk ptn.hd.drive (ptn.startLba + 1)) = superBlock ptn := by
  have limit := bufSize_limit ptn
  have stored : Written H (bytes (sb, 512)) s (H.setMem s (storeSuperBlock (H.mem s) sb (superBlock ptn))) :=
    setMem_written (fun a inside => .inl (low inside)) (storeSuperBlock_changes (H.mem s) (superBlock ptn) fits)
  unfold FsMount.fsFormat
  generalize H.setMem s (storeSuperBlock (H.mem s) sb (superBlock ptn)) = s0 at stored
  have room0 := stored.room room
  obtain ⟨some', live1, room1⟩ := room0.malloc limit
  have new := H.malloc_new s0 (bufSize ptn) n limit room0.1
  generalize taken : H.sysMalloc s0 (bufSize ptn) = t at *
  obtain ⟨buf, s1⟩ := t
  obtain ⟨m, c', formatted, confined⟩ :=
    fsFormat_confined (fun _ _ => (H.mem s1, buf)) (fun m _ => m) sb ptn (H.mem s) c large end_
  obtain ⟨m', c'', formatted', described⟩ :=
    fsFormat_superBlock (fun _ _ => (H.mem s1, buf)) (fun m _ => m) sb ptn (H.mem s) c large end_
  cases formatted.symm.trans formatted'
  have member : (buf, bufSize ptn) ∈ H.live s1 := by
    rw [live1]
    exact List.mem_cons_self
  have bounds : buf + bufSize ptn ≤ 2 ^ 32 := (H.fits s1 n room1.1 _ member).2
  have written : Written H (bytes (buf, bufSize ptn)) s1 (H.setMem s1 m) :=
    setMem_written (fun a within => .inr ⟨_, member, within⟩) (fsFormat_changes inside bounds formatted)
  have room2 := written.room room1
  obtain ⟨s2, freed, live2, room3⟩ := room2.free (b := (buf, bufSize ptn)) (by rw [written.live]; exact member)
  have old : (H.live s0).filter (·.1 ≠ buf) = H.live s0 :=
    List.filter_eq_self.mpr (fun b listed => decide_eq_true (new b listed))
  dsimp only
  rw [formatted, Option.bind_some, freed]
  refine ⟨s2, c', rfl, ?_, room3, confined, described⟩
  rw [live2, written.live, live1, List.filter_cons_of_neg (by simp), old, stored.live]

/-- The inode bitmap is misread on the kernel's heap as well: formatted and mounted with the pages there, a
partition with a free entry has no buffer that its inode bitmap was read into. -/
theorem format_mount_misreads (sb : Nat) (c : Channel) (root : Root) (inodeMax : Nat)
    (room : H.Room s (pagesFor (bufSize f.ptn) + (pagesFor 512 + (pagesFor 512 + (pagesFor (bufSize f.ptn) + n)))))
    (inside : FsBuffer.Inside f.ptn) (fits : sb + 512 ≤ 2 ^ 32) (low : bytes (sb, 512) ⊆ H.static)
    (large : 516 ≤ f.ptn.secCnt) (end_ : f.ptn.startLba + f.ptn.secCnt ≤ 2 ^ 28) (stale : Stale H s f.blkBtmp.bits)
    (entry : RootDir.live root.blk < root.blk.length) :
    ∃ s' c' r, FsMount.fsFormat H.toCalls sb f.ptn s c = some (s', c') ∧
      fsMount H.toCalls f root inodeMax s' c' = some r ∧
        ∀ read, r.reads[1]? = some read → read.dst = r.ptn.inodeBtmp.bits → read.dst = 0 := by
  obtain ⟨s', c', formatted, live, left, -, described⟩ := fsFormat_runs sb c room inside fits low large end_
  have stale' : Stale H s' f.blkBtmp.bits := by
    unfold Stale
    rwa [live]
  obtain ⟨s2, new, base, mounted, -, -, outcome, entered⟩ :=
    fsMount_room root inodeMax left (by omega) described stale'
  obtain ⟨root', added⟩ := RootDir.addToDir_room f.name base entry
  rw [added] at outcome
  refine ⟨s', c', _, formatted, outcome, ?_⟩
  intro read second same
  obtain ⟨lba, cnt, second'⟩ := (entered root').inodeRead
  obtain rfl := Option.some.inj (second.symm.trans second')
  by_contra some'
  have bits : (mounted root').ptn.inodeBtmp.bits ≠ 0 := fun null => some' (same.trans null)
  exact (entered root').inodeBits bits same.symm

end KOS.FsHeap
