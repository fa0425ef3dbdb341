import KOS.FsHeap
import KOS.HeapRoom

/-! The heap while partitions are formatted, mounted and unmounted. `fs_mount` keeps the two bitmaps that it
allocates, and `fs_unmount` frees nothing. -/

namespace KOS.MountLeak
open KOS.ByteMemory KOS.Ata KOS.Ide KOS.FsLayout KOS.FsMount KOS.FsHeap KOS.Clients KOS.HeapRoom
open KOS.Fs hiding fsFormat
open KOS.HeapLayout (MAX_SIZE classBlocks requested)
open KOS.HeapRun (Sys booted booted_start held kMemBlock)
open KOS.PageFrames (freeFrames)
open KOS.RootDir (Root addToDir addToDir_room live rootDirInit)

variable {mblock n : Nat} {fresh : Sys → Memory}

/-- No page frame is free, one block of the super block's size is the last, and there is none of the block
bitmap's size if that is another one of a class. -/
structure Starved (s : Sys) (len : Nat) : Prop where
  frames : freeFrames s.heap.pages.pp = 0
  last : ∃ x, ∀ y, FreeBlock s (classOf 512) y ↔ y = x
  others : len ≤ 1024 → classOf len ≠ classOf 512 → ∀ x, ¬FreeBlock s (classOf len) x

/-- The state in which `fs_mount` of `f` is called. -/
structure Mountable (mblock : Nat) (f : FsPtn) (s : Sys) (c : Channel) : Prop where
  low : 0x900 ≤ mblock
  whole : Whole mblock s (pagesFor 512 + (pagesFor 512 + pagesFor (bufSize f.ptn)))
  /-- There is a buffer for the super block. -/
  super : 0 < freeFrames s.heap.pages.pp ∨ ∃ x, FreeBlock s (classOf 512) x
  inside : f.ptn.startLba + 1 < 2 ^ 28
  formatted : superBlockOf (c.disk f.ptn.hd.drive (f.ptn.startLba + 1)) = superBlock f.ptn
  /-- The block bitmap's pointer is NULL, or the block of an earlier mount. -/
  stale : f.blkBtmp.bits = 0 ∨ ∃ b ∈ s.live, b.1 = f.blkBtmp.bits ∧ 512 ≤ b.2
  /-- A block bitmap that is read to NULL stays below what the boot code has left in memory. -/
  short : bufSize f.ptn ≤ 0x900 ∨ pagesFor 512 + (pagesFor 512 + pagesFor (bufSize f.ptn)) ≤ freeFrames s.heap.pages.pp

variable {s s1 s2 s' : Sys} {f : FsPtn} {c : Channel}

/-! Which calls of a mount are refused. -/

theorem written_blocks {S : Set Nat} (written : Written (clientHeap mblock fresh) S s s') (i x : Nat) :
    FreeBlock s' i x ↔ FreeBlock s i x := by
  obtain ⟨m, rfl⟩ := written.set
  exact Iff.rfl

theorem written_frames {S : Set Nat} (written : Written (clientHeap mblock fresh) S s s') :
    freeFrames s'.heap.pages.pp = freeFrames s.heap.pages.pp := written.frames

/-- A mount that has its super block gets neither bitmap exactly from a starved heap. -/
theorem refused_iff {len : Nat} (limit : len ≤ MAX_SIZE) (opened : Opened (clientHeap mblock fresh) s s1 s2)
    (whole : Whole mblock s (pagesFor 512 + (pagesFor 512 + (pagesFor len + n))))
    (whole1 : Whole mblock s1 (pagesFor 512 + (pagesFor len + n))) (whole2 : Whole mblock s2 (pagesFor len + n)) (some : (malloc mblock fresh s 512).1 ≠ 0) :
    (malloc mblock fresh s1 512).1 = 0 ∧ (malloc mblock fresh s2 len).1 = 0 ↔ Starved s len := by
  have limit512 : 512 ≤ MAX_SIZE := by decide
  obtain ⟨⟨S, written1⟩, S', written2⟩ := opened
  have blocks1 := written_blocks written1
  have blocks2 := written_blocks written2
  have frames1 := written_frames written1
  have frames2 := written_frames written2
  have one : pagesFor 512 = 1 := pagesFor_small (by decide)
  have positive := pagesFor_pos limit
  have null1 := whole1.malloc_null_iff fresh limit512
  have null2 := whole2.malloc_null_iff fresh limit
  have none1 : requested s1.heap mblock 512 = none ↔ _ := whole1.requested_none
  have none2 : requested s2.heap mblock len = none ↔ _ := whole2.requested_none
  by_cases reused : requested s.heap mblock 512 = none
  · obtain ⟨mine, left⟩ := whole.reused_blocks fresh limit512 reused
    have left1 : ∀ i x, FreeBlock s1 i x ↔ FreeBlock s i x ∧ x ≠ (malloc mblock fresh s 512).1 :=
      fun i x => (blocks1 i x).trans (left i x)
    have same : freeFrames s1.heap.pages.pp = freeFrames s.heap.pages.pp := by
      rw [frames1]
      exact reused_frames reused
    have super : (malloc mblock fresh s1 512).1 = 0 ↔
        freeFrames s.heap.pages.pp = 0 ∧ ∀ y, FreeBlock s (classOf 512) y ↔ y = (malloc mblock fresh s 512).1 := by
      rw [null1, one, same, ne_eq, none1]
      constructor
      · rintro ⟨empty, few⟩
        refine ⟨by omega, fun y => ⟨?_, fun equal => equal ▸ mine⟩⟩
        intro block
        by_contra other
        exact empty ⟨by decide, y, (left1 _ y).mpr ⟨block, other⟩⟩
      · rintro ⟨few, only⟩
        refine ⟨?_, by omega⟩
        rintro ⟨-, y, block⟩
        obtain ⟨block, other⟩ := (left1 _ y).mp block
        exact other ((only y).mp block)
    have bitmap : (malloc mblock fresh s1 512).1 = 0 → ((malloc mblock fresh s2 len).1 = 0 ↔
        (len ≤ 1024 → classOf len ≠ classOf 512 → ∀ x, ¬FreeBlock s (classOf len) x)) := by
      intro refused
      obtain ⟨few, only⟩ := super.mp refused
      have left2 : ∀ i x, FreeBlock s2 i x ↔ FreeBlock s i x ∧ x ≠ (malloc mblock fresh s 512).1 := fun i x =>
        (blocks2 i x).trans ((whole1.refused_blocks limit512 refused i x).trans (left1 i x))
      have none : freeFrames s2.heap.pages.pp = 0 := by
        rw [frames2]
        exact malloc_starved limit512 (same.trans few)
      rw [null2, none, ne_eq, none2, and_iff_left positive]
      constructor
      · intro empty little other x block
        apply empty
        refine ⟨little, x, (left2 _ x).mpr ⟨block, ?_⟩⟩
        rintro rfl
        exact other (block.class_unique whole mine)
      · rintro others ⟨little, x, block⟩
        obtain ⟨block, different⟩ := (left2 _ x).mp block
        by_cases shared : classOf len = classOf 512
        · rw [shared] at block
          exact different ((only x).mp block)
        · exact others little shared x block
    constructor
    · rintro ⟨refused, refused'⟩
      obtain ⟨few, only⟩ := super.mp refused
      exact ⟨few, ⟨_, only⟩, (bitmap refused).mp refused'⟩
    · intro starved
      obtain ⟨x, only⟩ := starved.last
      have equal : (malloc mblock fresh s 512).1 = x := (only _).mp mine
      have refused := super.mpr ⟨starved.frames, fun y => equal ▸ only y⟩
      exact ⟨refused, (bitmap refused).mpr starved.others⟩
  · have more := whole.new_blocks fresh (by decide) (by decide) reused some
    obtain ⟨x, block⟩ := more
    have full : requested s1.heap mblock 512 = none := none1.mpr ⟨by decide, x, (blocks1 _ x).mpr block⟩
    constructor
    · rintro ⟨refused, -⟩
      exact absurd full (null1.mp refused).1
    · intro starved
      obtain ⟨y, only⟩ := starved.last
      exact absurd (whole.requested_none.mpr ⟨by decide, y, (only y).mpr rfl⟩) reused

/-! One mount. -/

theorem low_below {mblock n : Nat} (low : 0x900 ≤ mblock) (short : n ≤ 0x900) : bytes (0, n) ⊆ below mblock := by
  rintro a ⟨-, high⟩
  have limit : a < 0x900 := by dsimp only at high; omega
  refine ⟨by unfold Paging.K_HEAP_START; omega, ?_⟩
  rintro ⟨first, -⟩
  omega

theorem Mountable.some (mountable : Mountable mblock f s c) : (malloc mblock fresh s 512).1 ≠ 0 := by
  have limit : 512 ≤ MAX_SIZE := by decide
  rw [Ne, mountable.whole.malloc_null_iff fresh limit, pagesFor_small (by decide : 512 ≤ 1024), ne_eq, mountable.whole.requested_none]
  rintro ⟨empty, few⟩
  rcases mountable.super with frame | block
  · omega
  · exact empty ⟨by decide, block⟩

theorem Mountable.reads (mountable : Mountable mblock f s c) (opened : Opened (clientHeap mblock fresh) s s1 s2) :
    (malloc mblock fresh s2 (bufSize f.ptn)).1 ≠ 0 ∨ bytes (0, bufSize f.ptn) ⊆ below mblock := by
  rcases mountable.short with short | enough
  · exact .inr (low_below mountable.low short)
  · have room : (clientHeap mblock fresh).Room s (pagesFor 512 + (pagesFor 512 + pagesFor (bufSize f.ptn))) :=
      ⟨mountable.whole, enough⟩
    have left := opened.room room
    rw [← Nat.add_zero (pagesFor (bufSize f.ptn))] at left
    exact .inl (left.malloc (bufSize_limit f.ptn)).1

/-- The blocks that a mount leaves: none or some new ones, and none exactly on a starved heap. -/
structure Leaks (s : Sys) (len : Nat) (new : List (Nat × Nat)) : Prop where
  few : new.length ≤ 2
  fresh : ∀ b ∈ new, b ∉ s.live
  none_iff : new = [] ↔ Starved s len

theorem granted_nil {p size : Nat} : granted p size = [] ↔ p = 0 := by
  unfold granted
  by_cases null : p = 0
  · rw [if_pos null]
    exact iff_of_true rfl null
  · rw [if_neg null]
    exact iff_of_false nofun null

theorem granted_length (p size : Nat) : (granted p size).length ≤ 1 := by
  unfold granted
  split_ifs
  · exact Nat.zero_le 1
  · exact le_rfl

theorem mem_granted {p size : Nat} {b : Nat × Nat} (member : b ∈ granted p size) : b.1 = p := by
  unfold granted at member
  split_ifs at member
  · cases member
  · rw [List.mem_singleton.mp member]

/-- Only the entry in the root directory can be missing at the end of a mount. -/
theorem fsMount_leaks (fresh : Sys → Memory) (root : Root) (inodeMax : Nat) (mountable : Mountable mblock f s c) :
    ∃ base mounted new, fsMount (heapCalls mblock fresh) f root inodeMax s c = (addToDir root f.name base).map mounted ∧
      Leaks s (bufSize f.ptn) new ∧ ∀ root', (mounted root').alloc.live = new ++ s.live := by
  have whole : Whole mblock s (pagesFor 512 + (pagesFor 512 + (pagesFor (bufSize f.ptn) + 0))) := by
    rw [Nat.add_zero]
    exact mountable.whole
  have stale : Stale (clientHeap mblock fresh) s f.blkBtmp.bits := by
    rcases mountable.stale with null | block
    · exact .inl ⟨null, low_below mountable.low (by decide)⟩
    · exact .inr block
  obtain ⟨s1, s2, s4, base, mounted, mount, outcome, entered⟩ := fsMount_runs (H := clientHeap mblock fresh) (c := c)
    (n := 0) root inodeMax whole mountable.some mountable.inside mountable.formatted stale fun s1 s2 => mountable.reads
  have blocks : s4.live = granted (malloc mblock fresh s2 (bufSize f.ptn)).1 (bufSize f.ptn) ++
      (granted (malloc mblock fresh s1 512).1 512 ++ s.live) := mount.live
  have sub := mount.opened.live (k := pagesFor 512 + (pagesFor (bufSize f.ptn) + 0)) whole mount.inode
  have new1 := (clientHeap mblock fresh).malloc_new s1 512 _ (by decide) mount.inode
  have new2 := (clientHeap mblock fresh).malloc_new s2 _ 0 (bufSize_limit f.ptn) mount.blk
  refine ⟨base, mounted, granted (malloc mblock fresh s2 (bufSize f.ptn)).1 (bufSize f.ptn) ++
    granted (malloc mblock fresh s1 512).1 512, outcome, ⟨?_, ?_, ?_⟩, ?_⟩
  · have first := granted_length (malloc mblock fresh s1 512).1 512
    have second := granted_length (malloc mblock fresh s2 (bufSize f.ptn)).1 (bufSize f.ptn)
    rw [List.length_append]
    omega
  · intro b member old
    rcases List.mem_append.mp member with second | first
    · exact new2 b (sub b old).2 (mem_granted second)
    · exact new1 b (sub b old).1 (mem_granted first)
  · rw [List.append_eq_nil_iff, granted_nil, granted_nil, and_comm]
    exact refused_iff (bufSize_limit f.ptn) mount.opened whole mount.inode mount.blk mountable.some
  · intro root'
    rw [(entered root').alloc, blocks, List.append_assoc]

/-! Runs. -/

/-- The state in which `fs_format` is called, with its super block at `sb`. -/
structure Formattable (mblock sb : Nat) (ptn : IdePtn) (s : Sys) : Prop where
  whole : Whole mblock s (pagesFor (bufSize ptn))
  frames : pagesFor (bufSize ptn) ≤ freeFrames s.heap.pages.pp
  keeps : FsBuffer.Inside ptn
  fits : sb + 512 ≤ 2 ^ 32
  low : bytes (sb, 512) ⊆ below mblock
  large : 516 ≤ ptn.secCnt
  inside : ptn.startLba + ptn.secCnt ≤ 2 ^ 28

/-- Partitions are formatted, mounted and unmounted, as `fs_init` and the test do it; `n` of the mounts are not made
on a starved heap. -/
inductive Cycles (mblock : Nat) (fresh : Sys → Memory) : Nat → State Sys → State Sys → Prop where
  | none (s : State Sys) : Cycles mblock fresh 0 s s
  | format {n : Nat} {s t u : State Sys} (sofar : Cycles mblock fresh n s t) (k sb : Nat) (f : FsPtn)
      (at_ : t.ptns[k]? = some f) (formattable : Formattable mblock sb f.ptn t.alloc)
      (ran : step (heapCalls mblock fresh) t (.format k sb) = some u) : Cycles mblock fresh n s u
  | starved {n : Nat} {s t u : State Sys} (sofar : Cycles mblock fresh n s t) (k : Nat) (f : FsPtn)
      (at_ : t.ptns[k]? = some f) (mountable : Mountable mblock f t.alloc t.chan) (starved : Starved t.alloc (bufSize f.ptn))
      (ran : step (heapCalls mblock fresh) t (.mount k) = some u) : Cycles mblock fresh n s u
  | mount {n : Nat} {s t u : State Sys} (sofar : Cycles mblock fresh n s t) (k : Nat) (f : FsPtn)
      (at_ : t.ptns[k]? = some f) (mountable : Mountable mblock f t.alloc t.chan) (rich : ¬Starved t.alloc (bufSize f.ptn))
      (ran : step (heapCalls mblock fresh) t (.mount k) = some u) : Cycles mblock fresh (n + 1) s u
  | unmount {n : Nat} {s t u : State Sys} (sofar : Cycles mblock fresh n s t) (k : Nat)
      (ran : step (heapCalls mblock fresh) t (.unmount k) = some u) : Cycles mblock fresh n s u

variable {t u v : State Sys} {k : Nat}

theorem mount_step {C : Calls Sys} (at_ : t.ptns[k]? = some f) :
    step C t (.mount k) = (fsMount C f t.root t.inodeMax t.alloc t.chan).map fun r =>
      ⟨r.alloc, r.chan, t.ptns.set k r.ptn, r.root, r.inodeMax⟩ := by
  rw [step, at_]
  exact (Option.map_eq_bind ..).symm

theorem format_step {C : Calls Sys} {sb : Nat} (at_ : t.ptns[k]? = some f) :
    step C t (.format k sb) = (fsFormat C sb f.ptn t.alloc t.chan).map fun r => { t with alloc := r.1, chan := r.2 } := by
  rw [step, at_]
  exact (Option.map_eq_bind ..).symm

theorem unmount_step {C : Calls Sys} (at_ : t.ptns[k]? = some f) :
    step C t (.unmount k) = some { t with root := RootDir.fsUnmount t.root f.name } := by
  rw [step, at_]
  rfl

theorem unmount_alloc {C : Calls Sys} (ran : step C t (.unmount k) = some u) : u.alloc = t.alloc := by
  obtain ⟨f, -, ran⟩ := Option.bind_eq_some_iff.mp ran
  cases ran
  rfl

theorem mount_leaks (at_ : t.ptns[k]? = some f) (mountable : Mountable mblock f t.alloc t.chan)
    (ran : step (heapCalls mblock fresh) t (.mount k) = some u) :
    ∃ new, u.alloc.live = new ++ t.alloc.live ∧ Leaks t.alloc (bufSize f.ptn) new := by
  obtain ⟨base, mounted, new, outcome, leaks, live⟩ := fsMount_leaks fresh t.root t.inodeMax mountable
  rw [mount_step at_, outcome] at ran
  obtain ⟨r, entry, rfl⟩ := Option.map_eq_some_iff.mp ran
  obtain ⟨root, -, rfl⟩ := Option.map_eq_some_iff.mp entry
  exact ⟨new, live root, leaks⟩

theorem format_live {sb : Nat} (at_ : t.ptns[k]? = some f) (formattable : Formattable mblock sb f.ptn t.alloc)
    (ran : step (heapCalls mblock fresh) t (.format k sb) = some u) : u.alloc.live = t.alloc.live := by
  have room : (clientHeap mblock fresh).Room t.alloc (pagesFor (bufSize f.ptn) + 0) := by
    rw [Nat.add_zero]
    exact ⟨formattable.whole, formattable.frames⟩
  obtain ⟨s', c', formatted, live, -⟩ := fsFormat_runs sb t.chan room formattable.keeps formattable.fits formattable.low
    formattable.large formattable.inside
  rw [format_step at_] at ran
  obtain ⟨r, formatted', rfl⟩ := Option.map_eq_some_iff.mp ran
  cases formatted.symm.trans formatted'
  exact live

theorem Cycles.live {n : Nat} {s : State Sys} (run : Cycles mblock fresh n s t) :
    ∃ new, t.alloc.live = new ++ s.alloc.live ∧ n ≤ new.length ∧ (n = 0 → new = []) := by
  induction run with
  | none s => exact ⟨[], rfl, le_rfl, fun _ => rfl⟩
  | format sofar k sb f at_ formattable ran ih =>
    rw [format_live at_ formattable ran]
    exact ih
  | unmount sofar k ran ih =>
    rw [unmount_alloc ran]
    exact ih
  | starved sofar k f at_ mountable starved ran ih =>
    obtain ⟨new, live, leaks⟩ := mount_leaks at_ mountable ran
    rw [live, leaks.none_iff.mpr starved]
    exact ih
  | mount sofar k f at_ mountable rich ran ih =>
    obtain ⟨old, before, count, -⟩ := ih
    obtain ⟨new, live, leaks⟩ := mount_leaks at_ mountable ran
    have some : new ≠ [] := fun none => rich (leaks.none_iff.mp none)
    have positive := List.length_pos_of_ne_nil some
    refine ⟨new ++ old, ?_, ?_, nofun⟩
    · rw [live, before, List.append_assoc]
    · rw [List.length_append]
      omega

variable (fresh) in
/-- A mount and the unmount after it. -/
theorem unmount_undoes {s : State Sys} (at_ : s.ptns[k]? = some f) (mountable : Mountable mblock f s.alloc s.chan)
    (room : live s.root.blk < s.root.blk.length) :
    ∃ t u, step (heapCalls mblock fresh) s (.mount k) = some t ∧ step (heapCalls mblock fresh) t (.unmount k) = some u ∧
      ((∀ b, b ∈ u.alloc.live ↔ b ∈ s.alloc.live) ↔ Starved s.alloc (bufSize f.ptn)) := by
  obtain ⟨base, mounted, new, outcome, leaks, after⟩ := fsMount_leaks fresh s.root s.inodeMax mountable
  obtain ⟨root, added⟩ := addToDir_room f.name base room
  have mounts := mount_step (C := heapCalls mblock fresh) at_
  rw [outcome, added, Option.map_some, Option.map_some] at mounts
  have there : (s.ptns.set k (mounted root).ptn)[k]? = some (mounted root).ptn :=
    List.getElem?_set_self (List.getElem?_eq_some_iff.mp at_).1
  refine ⟨_, _, mounts, unmount_step there, ?_⟩
  rw [← leaks.none_iff]
  show (∀ b, b ∈ (mounted root).alloc.live ↔ b ∈ s.alloc.live) ↔ new = []
  rw [after root]
  constructor
  · intro same
    apply List.eq_nil_iff_forall_not_mem.mpr
    intro b member
    exact leaks.fresh b member ((same b).mp (List.mem_append_left _ member))
  · rintro rfl b
    exact Iff.rfl

variable (fresh) in
/-- An unmount undoes a mount exactly on a starved heap. Over any run of mounts and unmounts each of the others leaves
at least a block. -/
theorem unmount_undoes_iff {s : State Sys} (at_ : s.ptns[k]? = some f) (mountable : Mountable mblock f s.alloc s.chan)
    (room : live s.root.blk < s.root.blk.length) :
    (∃ t u, step (heapCalls mblock fresh) s (.mount k) = some t ∧ step (heapCalls mblock fresh) t (.unmount k) = some u ∧
      ((∀ b, b ∈ u.alloc.live ↔ b ∈ s.alloc.live) ↔ Starved s.alloc (bufSize f.ptn))) ∧
      ∀ n t, Cycles mblock fresh n s t →
        ∃ new, t.alloc.live = new ++ s.alloc.live ∧ n ≤ new.length ∧ (n = 0 → new = []) :=
  ⟨unmount_undoes fresh at_ mountable room, fun _ _ => Cycles.live⟩

/-! The heap after boot. -/

def bootedHeap : State Sys where
  alloc := booted
  chan := countingDrive
  ptns := [scanned]
  root := rootDirInit
  inodeMax := 0

theorem scanned_keeps : FsBuffer.Inside scanned.ptn :=
  (FsBuffer.parts_fit _ (inodeBtmpSec_eq scanned.ptn) (FsBuffer.bufSize_eq scanned.ptn)).mpr (by decide)

theorem stack_below : bytes (0xC0080000, 512) ⊆ below kMemBlock := by
  rintro a ⟨first, last⟩
  dsimp only at first last
  exact below_booted (by omega)

/-- The partition is formatted, and there are frames. -/
theorem bootedHeap_formatted :
    ∃ s, step (heapCalls kMemBlock fun _ _ => 0) bootedHeap (.format 0 0xC0080000) = some s ∧ s.ptns[0]? = some scanned ∧
      s.root = rootDirInit ∧ Mountable kMemBlock scanned s.alloc s.chan ∧ ¬Starved s.alloc (bufSize scanned.ptn) := by
  have size : bufSize scanned.ptn = 512 := by decide
  have pages : pagesFor 512 = 1 := pagesFor_small (by decide)
  have room : bootHeap.Room booted (pagesFor (bufSize scanned.ptn) + 3) := by
    rw [size, pages]
    exact booted_room (by decide)
  obtain ⟨s', c', formatted, live, ⟨whole, left⟩, -, described⟩ := fsFormat_runs 0xC0080000 countingDrive room scanned_keeps
    (by decide) stack_below (by decide) (by decide)
  have moved : step (heapCalls kMemBlock fun _ _ => 0) bootedHeap (.format 0 0xC0080000) =
      some { bootedHeap with alloc := s', chan := c' } := by
    rw [format_step (f := scanned) rfl]
    exact congrArg _ formatted
  have frame : 3 ≤ freeFrames s'.heap.pages.pp := left
  refine ⟨_, moved, rfl, rfl, ⟨by decide, ?_, .inl (by show 0 < freeFrames s'.heap.pages.pp; omega), by decide, described, .inl rfl, ?_⟩, ?_⟩
  · rw [size, pages]
    exact whole
  · rw [size]
    exact .inl (by decide)
  · intro starved
    have none : freeFrames s'.heap.pages.pp = 0 := starved.frames
    omega

theorem bootedHeap_undoes_iff :
    ∃ s t u, step (heapCalls kMemBlock fun _ _ => 0) bootedHeap (.format 0 0xC0080000) = some s ∧
      step (heapCalls kMemBlock fun _ _ => 0) s (.mount 0) = some t ∧
        step (heapCalls kMemBlock fun _ _ => 0) t (.unmount 0) = some u ∧
          ((∀ b, b ∈ u.alloc.live ↔ b ∈ s.alloc.live) ↔ Starved s.alloc (bufSize scanned.ptn)) := by
  obtain ⟨s, formatted, at_, root, mountable, -⟩ := bootedHeap_formatted
  have room : live s.root.blk < s.root.blk.length := by
    rw [root]
    decide
  obtain ⟨⟨t, u, mounted, unmounted, undone⟩, -⟩ := unmount_undoes_iff (fun _ _ => 0) at_ mountable room
  exact ⟨s, t, u, formatted, mounted, unmounted, undone⟩

/-- Formatted, mounted and unmounted after boot: blocks are left. -/
theorem formatted_leaks :
    ∃ s t u, step (heapCalls kMemBlock fun _ _ => 0) bootedHeap (.format 0 0xC0080000) = some s ∧
      step (heapCalls kMemBlock fun _ _ => 0) s (.mount 0) = some t ∧
        step (heapCalls kMemBlock fun _ _ => 0) t (.unmount 0) = some u ∧
          ¬∀ b, b ∈ u.alloc.live ↔ b ∈ s.alloc.live := by
  obtain ⟨s, formatted, at_, root, mountable, rich⟩ := bootedHeap_formatted
  have room : live s.root.blk < s.root.blk.length := by
    rw [root]
    decide
  obtain ⟨t, u, mounted, unmounted, undone⟩ := unmount_undoes (fun _ _ => 0) at_ mountable room
  exact ⟨s, t, u, formatted, mounted, unmounted, fun same => rich (undone.mp same)⟩

end KOS.MountLeak
