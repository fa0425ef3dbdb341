import KOS.BootRead
import KOS.KernelElf
import KOS.SetupPage

/-! From the sectors of the kernel file to its segments: `read_hd_32` and `kernel_decode_elf`, one after the other
over the pages that `setup_page` maps. -/

namespace KOS.KernelBoot
open KOS.ByteMemory KOS.LinkMemory KOS.AddressMap KOS.Ata KOS.BootRead KOS.KernelElf

def KERNEL_SECTOR_COUNT : Nat := 200

abbrev File := Nat → UInt8

def FILE_SIZE : Nat := 512 * KERNEL_SECTOR_COUNT

namespace File
variable (f : File)

def word16 (k : Nat) : Nat := (f k).toNat + 2 ^ 8 * (f (k + 1)).toNat

def word32 (k : Nat) : Nat :=
  (f k).toNat + 2 ^ 8 * (f (k + 1)).toNat + 2 ^ 16 * (f (k + 2)).toNat + 2 ^ 24 * (f (k + 3)).toNat

def phnum : Nat := word16 f E_PHNUM

def header (i : Nat) : Nat := word32 f E_PHOFF + i * word16 f E_PHENTSIZE

def type (i : Nat) : Nat := word32 f (header f i + P_TYPE)
def offset (i : Nat) : Nat := word32 f (header f i + P_OFFSET)
def vaddr (i : Nat) : Nat := word32 f (header f i + P_VADDR)
def filesz (i : Nat) : Nat := word32 f (header f i + P_FILESZ)
def memsz (i : Nat) : Nat := word32 f (header f i + P_MEMSZ)

def Loadable (i : Nat) : Prop := i < phnum f ∧ type f i = PT_LOAD

/-- Where the segment comes to lie in the first megabyte. -/
def place (i : Nat) : Nat := vaddr f i - 0xC0000000

end File

def Apart (a n b k : Nat) : Prop := a + n ≤ b ∨ b + k ≤ a

/-- A kernel linked for the high half: it fits into its sectors, and its segments fit into the first megabyte around
the loader's stack and the file itself. -/
structure Kernel (f : File) : Prop where
  some : 0 < f.phnum
  headers : ∀ i < f.phnum, f.header i + P_END ≤ FILE_SIZE
  contents : ∀ i, f.Loadable i → f.offset i + f.filesz i ≤ FILE_SIZE
  sizes : ∀ i, f.Loadable i → f.filesz i ≤ f.memsz i
  high : ∀ i, f.Loadable i → 0xC0000000 ≤ f.vaddr i ∧ f.vaddr i + f.memsz i ≤ 0xC0100000
  stack : ∀ i, f.Loadable i → Apart (f.place i) (f.memsz i) (LOADER_STACK_TOP - 24) 24
  file : ∀ i, f.Loadable i → Apart (f.place i) (f.memsz i) KERNEL_BASE_ADDR FILE_SIZE
  apart : ∀ i j, f.Loadable i → f.Loadable j → i ≠ j → Apart (f.place i) (f.memsz i) (f.place j) (f.memsz j)
  others : ∀ i < f.phnum, f.type i ≠ PT_LOAD → f.type i % 2 ^ 8 = PT_LOAD → f.filesz i = 0

/-- Addresses are translated as the tables of `setup_page` say, where they say anything. -/
def Paged (t : Nat → Nat) : Prop :=
  ∃ p, ∀ v a, TwoLevel.walk (SetupPage.setupPage p) SetupPage.PAGE_DIR_ADDR v = some a → t v = a

variable {t : Nat → Nat} {f : File} {m m' : Memory} {c : Channel} {a b n k i : Nat}

/-! The first megabyte, seen from below and from above. -/

theorem Paged.low (paged : Paged t) (below : a < 0x100000) : t a = a := by
  obtain ⟨p, walks⟩ := paged
  have dir : TwoLevel.dirIndex a = 0 := by unfold TwoLevel.dirIndex; omega
  have table : TwoLevel.tableIndex a = a / 2 ^ 12 := by unfold TwoLevel.tableIndex; omega
  apply walks
  rw [SetupPage.setupPage_walk_low (.inl dir) (by omega), table]
  exact congrArg some (by unfold TwoLevel.offset; omega)

theorem Paged.high (paged : Paged t) (above : 0xC0000000 ≤ a) (below : a < 0xC0100000) : t a = a - 0xC0000000 := by
  obtain ⟨p, walks⟩ := paged
  have dir : TwoLevel.dirIndex a = 768 := by unfold TwoLevel.dirIndex; omega
  have table : TwoLevel.tableIndex a = (a - 0xC0000000) / 2 ^ 12 := by unfold TwoLevel.tableIndex; omega
  apply walks
  rw [SetupPage.setupPage_walk_low (.inr dir) (by omega), table]
  exact congrArg some (by unfold TwoLevel.offset; omega)

theorem Apart.disjoint {l : Nat} (apart : Apart a n b l) : Disjoint (Set.Ico a (a + n)) (Set.Ico b (b + l)) := by
  apply Set.disjoint_left.mpr
  intro x inside inside'
  have one := inside.1
  have two := inside.2
  have three := inside'.1
  have four := inside'.2
  unfold Apart at apart
  omega

/-! The memory with the file in it. -/

/-- What `read_hd_32` has put at `KERNEL_BASE_ADDR`. -/
def Carries (t : Nat → Nat) (f : File) (m : Memory) : Prop := ∀ k < FILE_SIZE, read t m (KERNEL_BASE_ADDR + k) = f k

theorem Carries.word16 (carries : Carries t f m) (inside : k + 2 ≤ FILE_SIZE) :
    read16 t m (KERNEL_BASE_ADDR + k) = f.word16 k := by
  rw [read16, LinkMemory.word16, Nat.add_assoc, carries k (by omega), carries (k + 1) (by omega)]
  rfl

theorem Carries.word32 (carries : Carries t f m) (inside : k + 4 ≤ FILE_SIZE) :
    read32 t m (KERNEL_BASE_ADDR + k) = f.word32 k := by
  have first := carries k (by omega)
  have second := carries (k + 1) (by omega)
  have third := carries (k + 2) (by omega)
  have fourth := carries (k + 3) (by omega)
  simp only [read32, File.word32, Nat.add_assoc KERNEL_BASE_ADDR, first, second, third, fourth]

theorem Carries.phnum (carries : Carries t f m) : KernelElf.phnum t m = f.phnum := carries.word16 (by decide)

theorem Carries.header (carries : Carries t f m) (i : Nat) : KernelElf.header t m i = KERNEL_BASE_ADDR + f.header i := by
  rw [KernelElf.header, carries.word32 (by decide), carries.word16 (by decide), Nat.add_assoc]
  rfl

section Image
variable (carries : Carries t f m) (kernel : Kernel f)
include carries kernel

end Image

/-- The cells that loading may change. -/
def loaded (f : File) : Set Nat :=
  Set.Ico KERNEL_BASE_ADDR (KERNEL_BASE_ADDR + FILE_SIZE) ∪ Set.Ico (LOADER_STACK_TOP - 24) LOADER_STACK_TOP ∪
    {x | ∃ i, f.Loadable i ∧ x ∈ Set.Ico (f.place i) (f.place i + f.memsz i)}

end KOS.KernelBoot
