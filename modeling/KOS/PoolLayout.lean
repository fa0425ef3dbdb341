import KOS.Paging

/-! The arithmetic of `pool_init`: what each of its variables holds, and where the frames and the bitmaps lie. -/

namespace KOS.PoolLayout
open KOS.PageBitmap KOS.Paging

def PADDR_BITMAP_BASE : Int := 0xC0076000
def K_VADDR_BITMAP_BASE : Int := 0xC0096000

/-- The variables of `pool_init`, and the addresses and lengths it gives to `bitmap_init`. -/
structure PoolVars where
  pageTableSize : Int
  usedMem : Int
  freeMem : Int
  allFreePages : Int
  kernelFreePages : Int
  userFreePages : Int
  kpStart : Int
  upStart : Int
  kpSize : Int
  upSize : Int
  kbmLength : Int
  ubmLength : Int
  kpBits : Int
  upBits : Int
  vpBits : Int
  vpLength : Int

/-- Every sum, difference, product and quotient goes through `word`. -/
def poolVars (word : Int → Int) (memTotalSize : Int) : PoolVars :=
  let pageTableSize := word (PG_SIZE * 256)
  let usedMem := word (pageTableSize + 0x100000)
  let freeMem := word (memTotalSize - usedMem)
  let allFreePages := word (freeMem / PG_SIZE)
  let half := word (allFreePages / 2)
  let kernelFreePages := if half > 0x40000 then 0x40000 else half
  let userFreePages := word (allFreePages - kernelFreePages)
  let kpSize := word (kernelFreePages * PG_SIZE)
  let kbmLength := word (kernelFreePages / 8)
  { pageTableSize := pageTableSize
    usedMem := usedMem
    freeMem := freeMem
    allFreePages := allFreePages
    kernelFreePages := kernelFreePages
    userFreePages := userFreePages
    kpStart := usedMem
    upStart := word (usedMem + kpSize)
    kpSize := kpSize
    upSize := word (userFreePages * PG_SIZE)
    kbmLength := kbmLength
    ubmLength := word (userFreePages / 8)
    kpBits := PADDR_BITMAP_BASE
    upBits := word (PADDR_BITMAP_BASE + kbmLength)
    vpBits := K_VADDR_BITMAP_BASE
    vpLength := 0x8000 }

/-- A register of 32 bits. -/
def wrap (value : Int) : Int := value % 2 ^ 32

/-- The bytes that `bitmap_reset` clears, one range for each bitmap. -/
def storage (v : PoolVars) : List (Set Int) :=
  [Set.Ico v.kpBits (v.kpBits + v.kbmLength), Set.Ico v.upBits (v.upBits + v.ubmLength),
    Set.Ico v.vpBits (v.vpBits + v.vpLength)]

/-- The bytes of the frame that bit `i` stands for. -/
def frame (pp : PPool) (i : Nat) : Set Nat :=
  Set.Ico (pp.paddrStart + PG_SIZE * i) (pp.paddrStart + PG_SIZE * i + PG_SIZE)

/-- A bit of the kernel pool or of the user pool. -/
inductive FrameBit (k : Pages) where
  | kernel (i : Nat) (inside : i < 8 * k.pp.paddrBitmap.len)
  | user (i : Nat) (inside : i < 8 * k.up.paddrBitmap.len)

def FrameBit.frame {k : Pages} : FrameBit k → Set Nat
  | .kernel i _ => PoolLayout.frame k.pp i
  | .user i _ => PoolLayout.frame k.up i

variable {k : Pages} {memTotalSize : Nat}

theorem wrap_range {value : Int} (low : 0 ≤ value) (high : value < 2 ^ 32) : wrap value = value :=
  Int.emod_eq_of_lt low high

/-- No result of `pool_init` leaves the range of a register. -/
theorem poolVars_wrap {mem : Int} (low : 0x200000 ≤ mem) (high : mem < 2 ^ 32) :
    poolVars wrap mem = poolVars id mem := by
  have page : (PG_SIZE : Int) = 4096 := rfl
  have base : PADDR_BITMAP_BASE = 0xC0076000 := rfl
  unfold poolVars
  simp only [id_eq, page, base]
  rw [wrap_range (show (0 : Int) ≤ 4096 * 256 by decide) (by decide)]
  rw [wrap_range (show (0 : Int) ≤ 4096 * 256 + 0x100000 by decide) (by decide)]
  rw [wrap_range (show 0 ≤ mem - (4096 * 256 + 0x100000) by omega) (by omega)]
  generalize free : mem - (4096 * 256 + 0x100000) = freeMem
  rw [wrap_range (show 0 ≤ freeMem / 4096 by omega) (by omega)]
  generalize all : freeMem / 4096 = allFreePages
  rw [wrap_range (show 0 ≤ allFreePages / 2 by omega) (by omega)]
  have kernel : 0 ≤ (if allFreePages / 2 > 0x40000 then 0x40000 else allFreePages / 2) ∧
      (if allFreePages / 2 > 0x40000 then 0x40000 else allFreePages / 2) ≤ allFreePages := by
    split_ifs <;> omega
  generalize (if allFreePages / 2 > 0x40000 then 0x40000 else allFreePages / 2) = kernelFreePages at kernel
  obtain ⟨positive, most⟩ := kernel
  rw [wrap_range (show 0 ≤ allFreePages - kernelFreePages by omega) (by omega)]
  rw [wrap_range (show 0 ≤ kernelFreePages * 4096 by omega) (by omega)]
  rw [wrap_range (show 0 ≤ kernelFreePages / 8 by omega) (by omega)]
  rw [wrap_range (show 0 ≤ 4096 * 256 + 0x100000 + kernelFreePages * 4096 by omega) (by omega)]
  rw [wrap_range (show 0 ≤ (allFreePages - kernelFreePages) * 4096 by omega) (by omega)]
  rw [wrap_range (show 0 ≤ (allFreePages - kernelFreePages) / 8 by omega) (by omega)]
  rw [wrap_range (show 0 ≤ 0xC0076000 + kernelFreePages / 8 by omega) (by omega)]

/-- The variables that end up in the pools. -/
structure Holds (k : Pages) (v : PoolVars) : Prop where
  kpStart : (k.pp.paddrStart : Int) = v.kpStart
  upStart : (k.up.paddrStart : Int) = v.upStart
  kpSize : (k.pp.size : Int) = v.kpSize
  upSize : (k.up.size : Int) = v.upSize
  kbmLength : (k.pp.paddrBitmap.len : Int) = v.kbmLength
  ubmLength : (k.up.paddrBitmap.len : Int) = v.ubmLength
  vpLength : (k.vp.vaddrBitmap.len : Int) = v.vpLength

/-- How the pages are shared out, without the intermediate results. -/
structure Shares (v : PoolVars) (mem kernelPages userPages : Int) : Prop where
  pages : kernelPages + userPages = (mem - 0x200000) / 4096
  cap : kernelPages ≤ 0x40000
  kernel : 0 ≤ kernelPages
  user : 0 ≤ userPages
  kpStart : v.kpStart = 0x200000
  upStart : v.upStart = 0x200000 + kernelPages * 4096
  kpSize : v.kpSize = kernelPages * 4096
  upSize : v.upSize = userPages * 4096
  kbmLength : v.kbmLength = kernelPages / 8
  ubmLength : v.ubmLength = userPages / 8

theorem poolVars_shares {mem : Int} (low : 0x200000 ≤ mem) :
    ∃ kernelPages userPages, Shares (poolVars id mem) mem kernelPages userPages := by
  have page : (PG_SIZE : Int) = 4096 := rfl
  refine ⟨(poolVars id mem).kernelFreePages, (poolVars id mem).userFreePages, ?_⟩
  unfold poolVars
  simp only [id_eq, page]
  generalize all : (mem - (4096 * 256 + 0x100000)) / 4096 = allFreePages
  generalize kernel : (if allFreePages / 2 > 0x40000 then 0x40000 else allFreePages / 2) = kernelFreePages
  have share : 0 ≤ kernelFreePages ∧ kernelFreePages ≤ allFreePages ∧ kernelFreePages ≤ 0x40000 := by
    rw [← kernel]
    split_ifs <;> omega
  obtain ⟨positive, most, cap⟩ := share
  refine ⟨?_, cap, positive, ?_, rfl, ?_, rfl, rfl, rfl, rfl⟩
  · show kernelFreePages + (allFreePages - kernelFreePages) = (mem - 0x200000) / 4096
    omega
  · show 0 ≤ allFreePages - kernelFreePages
    omega
  · show 4096 * 256 + 0x100000 + kernelFreePages * 4096 = 0x200000 + kernelFreePages * 4096
    omega

theorem poolInit_holds (low : 0x200000 ≤ memTotalSize) (high : memTotalSize < 2 ^ 32) :
    Holds (poolInit k memTotalSize) (poolVars id memTotalSize) := by
  have page : (PG_SIZE : Int) = 4096 := rfl
  obtain ⟨freeMem, rfl⟩ : ∃ freeMem, memTotalSize = freeMem + 0x200000 := ⟨memTotalSize - 0x200000, by omega⟩
  have free : (freeMem + 0x200000 + (2 ^ 32 - (PG_SIZE * 256 + 0x100000))) % 2 ^ 32 = freeMem := by
    unfold PG_SIZE
    omega
  have cast : ((freeMem + 0x200000 : Nat) : Int) - (4096 * 256 + 0x100000) = freeMem := by omega
  unfold poolInit poolVars
  simp only [id_eq, page, free, cast]
  clear free cast
  have kernel : ((if freeMem / PG_SIZE / 2 > 0x40000 then 0x40000 else freeMem / PG_SIZE / 2 : Nat) : Int) =
      if (freeMem : Int) / 4096 / 2 > 0x40000 then 0x40000 else (freeMem : Int) / 4096 / 2 := by
    show ((if freeMem / 4096 / 2 > 0x40000 then 0x40000 else freeMem / 4096 / 2 : Nat) : Int) = _
    split_ifs <;> omega
  have most : (if freeMem / PG_SIZE / 2 > 0x40000 then 0x40000 else freeMem / PG_SIZE / 2) ≤ freeMem / PG_SIZE := by
    show (if freeMem / 4096 / 2 > 0x40000 then 0x40000 else freeMem / 4096 / 2) ≤ freeMem / 4096
    split_ifs <;> omega
  rw [← kernel]
  generalize (if freeMem / PG_SIZE / 2 > 0x40000 then 0x40000 else freeMem / PG_SIZE / 2) = pages at most
  clear kernel
  unfold PG_SIZE at most ⊢
  refine ⟨?_, ?_, ?_, ?_, ?_, ?_, ?_⟩
  · show ((4096 * 256 + 0x100000 : Nat) : Int) = 4096 * 256 + 0x100000
    omega
  · show (((4096 * 256 + 0x100000 + pages * 4096) % 2 ^ 32 : Nat) : Int) = 4096 * 256 + 0x100000 + pages * 4096
    omega
  · show ((pages * 4096 % 2 ^ 32 : Nat) : Int) = pages * 4096
    omega
  · show (((freeMem / 4096 - pages) * 4096 % 2 ^ 32 : Nat) : Int) = (freeMem / 4096 - pages) * 4096
    omega
  · show ((pages / 8 : Nat) : Int) = pages / 8
    omega
  · show (((freeMem / 4096 - pages) / 8 : Nat) : Int) = (freeMem / 4096 - pages) / 8
    omega
  · show ((0x8000 : Nat) : Int) = 0x8000
    omega

/-! The frames. -/

theorem frame_disjoint {pp pp' : PPool} {i i' : Nat}
    (apart : pp.paddrStart + PG_SIZE * i + PG_SIZE ≤ pp'.paddrStart + PG_SIZE * i') :
    Disjoint (frame pp i) (frame pp' i') := by
  rw [Set.disjoint_left]
  intro a member member'
  have low := member'.1
  have high := member.2
  omega

theorem frame_apart (pp : PPool) {i i' : Nat} (different : i ≠ i') : Disjoint (frame pp i) (frame pp i') := by
  rcases Nat.lt_or_gt_of_ne different with before | after
  · apply frame_disjoint
    unfold PG_SIZE
    omega
  · apply Disjoint.symm
    apply frame_disjoint
    unfold PG_SIZE
    omega

/-- `pool_init` has laid out the pools and their bitmaps. -/
structure Layout (k : Pages) (v : PoolVars) (memTotalSize : Nat) : Prop where
  disjoint : ∀ b c : FrameBit k, b ≠ c → Disjoint b.frame c.frame
  range : ∀ b : FrameBit k, b.frame ⊆ Set.Ico 0x200000 memTotalSize
  cap : k.pp.size / PG_SIZE ≤ 2 ^ 18
  kernelBits : k.pp.size / PG_SIZE ≤ 8 * k.pp.paddrBitmap.len + 7
  userBits : k.up.size / PG_SIZE ≤ 8 * k.up.paddrBitmap.len + 7
  storage : (storage v).Pairwise Disjoint
  window : Set.Ico v.kpBits (v.kpBits + v.kbmLength) ∪ Set.Ico v.upBits (v.upBits + v.ubmLength) ⊆
    Set.Ico 0xC0076000 0xC0096000

section Shared
variable {v : PoolVars} {kernelPages userPages : Int}

theorem Shares.kernelBit (shares : Shares v memTotalSize kernelPages userPages) (holds : Holds k v) {i : Nat}
    (inside : i < 8 * k.pp.paddrBitmap.len) :
    0x200000 ≤ k.pp.paddrStart ∧ k.pp.paddrStart + PG_SIZE * i + PG_SIZE ≤ k.up.paddrStart := by
  have start := holds.kpStart.trans shares.kpStart
  have length := holds.kbmLength.trans shares.kbmLength
  have next := holds.upStart.trans shares.upStart
  unfold PG_SIZE
  omega

theorem Shares.userBit (shares : Shares v memTotalSize kernelPages userPages) (holds : Holds k v)
    {i : Nat} (inside : i < 8 * k.up.paddrBitmap.len) :
    0x200000 ≤ k.up.paddrStart ∧ k.up.paddrStart + PG_SIZE * i + PG_SIZE ≤ memTotalSize := by
  have start := holds.upStart.trans shares.upStart
  have length := holds.ubmLength.trans shares.ubmLength
  have pages := shares.pages
  have kernel := shares.kernel
  unfold PG_SIZE
  omega

theorem Shares.disjoint (shares : Shares v memTotalSize kernelPages userPages) (holds : Holds k v)
    (b c : FrameBit k) (different : b ≠ c) : Disjoint b.frame c.frame := by
  cases b with
  | kernel i inside =>
    cases c with
    | kernel i' inside' =>
      apply frame_apart
      intro same
      subst same
      exact different rfl
    | user i' inside' =>
      have before := (shares.kernelBit holds inside).2
      apply frame_disjoint
      omega
  | user i inside =>
    cases c with
    | kernel i' inside' =>
      have before := (shares.kernelBit holds inside').2
      apply Disjoint.symm
      apply frame_disjoint
      omega
    | user i' inside' =>
      apply frame_apart
      intro same
      subst same
      exact different rfl

theorem Shares.range (shares : Shares v memTotalSize kernelPages userPages) (holds : Holds k v)
    (b : FrameBit k) : b.frame ⊆ Set.Ico 0x200000 memTotalSize := by
  cases b with
  | kernel i inside =>
    obtain ⟨start, before⟩ := shares.kernelBit holds inside
    have next := holds.upStart.trans shares.upStart
    have pages := shares.pages
    have user := shares.user
    apply Set.Ico_subset_Ico
    · omega
    · omega
  | user i inside =>
    obtain ⟨start, before⟩ := shares.userBit holds inside
    apply Set.Ico_subset_Ico
    · omega
    · omega

/-- The user bitmap follows the kernel bitmap, and both end before the virtual one. -/
theorem Shares.bitmaps (shares : Shares v memTotalSize kernelPages userPages) (high : memTotalSize < 2 ^ 32) :
    0 ≤ v.kbmLength ∧ 0 ≤ v.ubmLength ∧ PADDR_BITMAP_BASE + v.kbmLength + v.ubmLength ≤ K_VADDR_BITMAP_BASE := by
  have pages := shares.pages
  have kernel := shares.kernel
  have user := shares.user
  rw [shares.kbmLength, shares.ubmLength]
  unfold PADDR_BITMAP_BASE K_VADDR_BITMAP_BASE
  omega

end Shared

theorem Ico_before {a b c d : Int} (before : b ≤ c) : Disjoint (Set.Ico a b) (Set.Ico c d) := by
  rw [Set.disjoint_left]
  intro x member member'
  have low := member'.1
  have high := member.2
  omega

/-- The kernel's bitmap comes first, then the user's, then that of the virtual pool. -/
theorem storage_apart {v : PoolVars} (first : v.kpBits + v.kbmLength ≤ v.upBits) (between : v.kpBits + v.kbmLength ≤ v.vpBits)
    (last : v.upBits + v.ubmLength ≤ v.vpBits) : (storage v).Pairwise Disjoint := by
  apply List.Pairwise.cons
  · intro range member
    rcases List.mem_cons.mp member with second | third
    · rw [second]
      exact Ico_before first
    · rw [List.mem_singleton.mp third]
      exact Ico_before between
  · apply List.Pairwise.cons
    · intro range member
      rw [List.mem_singleton.mp member]
      exact Ico_before last
    · exact List.pairwise_singleton _ _

/-- The layout is right for every memory size from 2 MiB up to 4 GiB, and no result overflows on the way. -/
theorem poolInit_layout (k : Pages) {memTotalSize : Nat} (low : 0x200000 ≤ memTotalSize)
    (high : memTotalSize < 2 ^ 32) :
    poolVars wrap memTotalSize = poolVars id memTotalSize ∧
      Holds (poolInit k memTotalSize) (poolVars wrap memTotalSize) ∧
      Layout (poolInit k memTotalSize) (poolVars wrap memTotalSize) memTotalSize := by
  have exact : poolVars wrap memTotalSize = poolVars id memTotalSize := poolVars_wrap (by omega) (by omega)
  have holds : Holds (poolInit k memTotalSize) (poolVars id memTotalSize) := poolInit_holds low high
  obtain ⟨kernelPages, userPages, shares⟩ := poolVars_shares (show (0x200000 : Int) ≤ memTotalSize by omega)
  obtain ⟨kbm, ubm, fit⟩ := shares.bitmaps high
  have pages := shares.pages
  have kernel := shares.kernel
  have user := shares.user
  have cap := shares.cap
  rw [exact]
  refine ⟨rfl, holds, shares.disjoint holds, shares.range holds, ?_, ?_, ?_, ?_, ?_⟩
  · have size := holds.kpSize.trans shares.kpSize
    unfold PG_SIZE
    omega
  · have size := holds.kpSize.trans shares.kpSize
    have length := holds.kbmLength.trans shares.kbmLength
    unfold PG_SIZE
    omega
  · have size := holds.upSize.trans shares.upSize
    have length := holds.ubmLength.trans shares.ubmLength
    unfold PG_SIZE
    omega
  · apply storage_apart
    · show PADDR_BITMAP_BASE + (poolVars id memTotalSize).kbmLength ≤ PADDR_BITMAP_BASE + (poolVars id memTotalSize).kbmLength
      exact le_rfl
    · show PADDR_BITMAP_BASE + (poolVars id memTotalSize).kbmLength ≤ K_VADDR_BITMAP_BASE
      omega
    · exact fit
  · apply Set.union_subset
    · apply Set.Ico_subset_Ico
      · exact le_rfl
      · show PADDR_BITMAP_BASE + (poolVars id memTotalSize).kbmLength ≤ K_VADDR_BITMAP_BASE
        omega
    · apply Set.Ico_subset_Ico
      · show PADDR_BITMAP_BASE ≤ PADDR_BITMAP_BASE + (poolVars id memTotalSize).kbmLength
        omega
      · show PADDR_BITMAP_BASE + (poolVars id memTotalSize).kbmLength + (poolVars id memTotalSize).ubmLength ≤
          K_VADDR_BITMAP_BASE
        exact fit

/-- Before `pool_init` everything is zero. -/
def zeroedPages : Pages where
  vp := { vaddrStart := 0, vaddrBitmap := bitmapInit (fun _ => 0) 0 }
  pp := { paddrStart := 0, size := 0, paddrBitmap := bitmapInit (fun _ => 0) 0 }
  up := { paddrStart := 0, size := 0, paddrBitmap := bitmapInit (fun _ => 0) 0 }
  pde := fun _ => 0
  pte := fun _ => 0

theorem poolInit_layout_192MiB :
    Layout (poolInit zeroedPages 0xC000000) (poolVars wrap 0xC000000) 0xC000000 :=
  (poolInit_layout zeroedPages (show 0x200000 ≤ 0xC000000 by decide) (by decide)).2.2

end KOS.PoolLayout
