import KOS.AddressMap

/-! `kernel_decode_elf` and `mem_cpy` of `loader.s`: the program headers of the kernel image and what is copied
for them. Paging is on, so memory is seen through a map of addresses. -/

namespace KOS.KernelElf
open KOS.ByteMemory KOS.LinkMemory KOS.AddressMap

def KERNEL_BASE_ADDR : Nat := 0x70000
def LOADER_STACK_TOP : Nat := 0x800

def E_PHOFF : Nat := 28
def E_PHENTSIZE : Nat := 42
def E_PHNUM : Nat := 44
def E_END : Nat := 52

def P_TYPE : Nat := 0
def P_OFFSET : Nat := 4
def P_VADDR : Nat := 8
def P_FILESZ : Nat := 16
def P_MEMSZ : Nat := 20
def P_END : Nat := 32

def PT_LOAD : Nat := 1

section Code

variable (t : Nat → Nat)

/-- `mem_cpy`, called with its arguments at `esp + 4`: memory, `ecx`, and the bytes that `rep movsb` moves. -/
def memCpy (m : Memory) (esp ecx : Nat) : Memory × Nat × Nat :=
  let esp := esp - 4
  let m := write32 t m esp ecx
  let edi := read32 t m (esp + 8)
  let esi := read32 t m (esp + 12)
  let count := read32 t m (esp + 16)
  let m := move t count m edi esi
  (m, read32 t m esp, count)

/-- One pass of `each_program_header_loop` up to `next_program_header`; `ret` is the address that `call` pushes. -/
def eachProgramHeader (ret : Nat) (m : Memory) (ebx ecx : Nat) : Memory × Nat × Nat :=
  if (read t m (ebx + P_TYPE)).toNat ≠ PT_LOAD then (m, ecx, 0)
  else
    -- `kernel_decode_elf` itself was called from the top of the stack
    let esp := LOADER_STACK_TOP - 4
    let esp := esp - 4
    let m := write32 t m esp (read32 t m (ebx + P_FILESZ))
    let eax := (read32 t m (ebx + P_OFFSET) + KERNEL_BASE_ADDR) % 2 ^ 32
    let esp := esp - 4
    let m := write32 t m esp eax
    let esp := esp - 4
    let m := write32 t m esp (read32 t m (ebx + P_VADDR))
    let esp := esp - 4
    let m := write32 t m esp ret
    memCpy t m esp ecx

/-- The loop, with the bytes moved for each header it passes; `none` when the fuel runs out. -/
def programHeaderLoop (ret edx : Nat) : Nat → Memory → Nat → Nat → Option (Memory × List Nat)
  | 0, _, _, _ => none
  | fuel + 1, m, ebx, ecx =>
      let (m, ecx, count) := eachProgramHeader t ret m ebx ecx
      let ebx := (ebx + edx) % 2 ^ 32
      let ecx := (ecx + (2 ^ 32 - 1)) % 2 ^ 32
      if ecx = 0 then some (m, [count])
      else (programHeaderLoop ret edx fuel m ebx ecx).map fun r => (r.1, count :: r.2)

def kernelDecodeElf (ret fuel : Nat) (m : Memory) : Option (Memory × List Nat) :=
  let ebx := (KERNEL_BASE_ADDR + read32 t m (KERNEL_BASE_ADDR + E_PHOFF)) % 2 ^ 32
  let ecx := read16 t m (KERNEL_BASE_ADDR + E_PHNUM)
  let edx := read16 t m (KERNEL_BASE_ADDR + E_PHENTSIZE)
  programHeaderLoop t ret edx fuel m ebx ecx

/-! The image as the file format has it. -/

def phnum (m : Memory) : Nat := read16 t m (KERNEL_BASE_ADDR + E_PHNUM)

def header (m : Memory) (i : Nat) : Nat :=
  KERNEL_BASE_ADDR + read32 t m (KERNEL_BASE_ADDR + E_PHOFF) + i * read16 t m (KERNEL_BASE_ADDR + E_PHENTSIZE)

def pType (m : Memory) (i : Nat) : Nat := read32 t m (header t m i + P_TYPE)
def pOffset (m : Memory) (i : Nat) : Nat := read32 t m (header t m i + P_OFFSET)
def pVaddr (m : Memory) (i : Nat) : Nat := read32 t m (header t m i + P_VADDR)
def pFilesz (m : Memory) (i : Nat) : Nat := read32 t m (header t m i + P_FILESZ)
def pMemsz (m : Memory) (i : Nat) : Nat := read32 t m (header t m i + P_MEMSZ)

/-- Header `i` describes a loadable segment. -/
def Loadable (m : Memory) (i : Nat) : Prop := i < phnum t m ∧ pType t m i = PT_LOAD

instance (m : Memory) : DecidablePred (Loadable t m) := fun _ => inferInstanceAs (Decidable (_ ∧ _))

def segment (m : Memory) (i : Nat) : Set Nat := cells t (pVaddr t m i) (pMemsz t m i)

/-- The part of the loader's stack that `kernel_decode_elf` uses. -/
def stack : Set Nat := cells t (LOADER_STACK_TOP - 24) 24

/-- An ELF32 image of `len` bytes at `KERNEL_BASE_ADDR`, and where its segments go. -/
structure Image (m : Memory) (len : Nat) : Prop where
  fits : KERNEL_BASE_ADDR + len ≤ 2 ^ 32
  ehdr : E_END ≤ len
  some : 0 < phnum t m
  headers : ∀ i < phnum t m, header t m i + P_END ≤ KERNEL_BASE_ADDR + len
  contents : ∀ i, Loadable t m i → pOffset t m i + pFilesz t m i ≤ len
  sizes : ∀ i, Loadable t m i → pFilesz t m i ≤ pMemsz t m i
  once : ∀ i, Loadable t m i → Once t (pVaddr t m i) (pMemsz t m i)
  onceStack : Once t (LOADER_STACK_TOP - 24) 24
  apartStack : Disjoint (stack t) (cells t KERNEL_BASE_ADDR len)
  apartImage : ∀ i, Loadable t m i → Disjoint (segment t m i) (cells t KERNEL_BASE_ADDR len)
  apartSegment : ∀ i, Loadable t m i → Disjoint (segment t m i) (stack t)
  apart : ∀ i j, Loadable t m i → Loadable t m j → i ≠ j → Disjoint (segment t m i) (segment t m j)

/-- What loading means: each segment holds its file bytes and zeros behind them, nothing else but the stack
has changed, and no other header had anything copied. -/
structure Loaded (m m' : Memory) (moved : List Nat) : Prop where
  segments : ∀ i, Loadable t m i → ∀ k < pMemsz t m i, read t m' (pVaddr t m i + k) =
    if k < pFilesz t m i then read t m (KERNEL_BASE_ADDR + pOffset t m i + k) else 0
  frame : ChangesOnly (stack t ∪ {x | ∃ i, Loadable t m i ∧ x ∈ segment t m i}) m m'
  others : ∀ i < phnum t m, pType t m i ≠ PT_LOAD → moved.getD i 0 = 0

end Code

variable {t : Nat → Nat} {m m' : Memory} {ret len : Nat}

/-! One header. -/

/-- Slot `k` of the five words that a copy pushes. -/
def slot (k : Nat) : Nat := LOADER_STACK_TOP - 24 + 4 * k

theorem slot_cells {k : Nat} (inside : k < 6) : cells t (slot k) 4 ⊆ stack t := cells_part (by omega)

theorem slot_once (once : Once t (LOADER_STACK_TOP - 24) 24) {k : Nat} (inside : k < 6) : Once t (slot k) 4 := by
  intro i low j low' same
  unfold slot at same
  rw [Nat.add_assoc, Nat.add_assoc] at same
  have equal := once (4 * k + i) (by omega) (4 * k + j) (by omega) same
  omega

/-- A push leaves the other slots alone. -/
theorem slot_apart (once : Once t (LOADER_STACK_TOP - 24) 24) (m : Memory) (v : Nat) {k l : Nat} (inside : k < 6)
    (inside' : l < 6) (different : k ≠ l) : read32 t (write32 t m (slot k) v) (slot l) = read32 t m (slot l) := by
  apply read32_congr (write32_changes m (slot k) v)
  rintro x ⟨i, low, rfl⟩ ⟨j, low', same⟩
  unfold slot at same
  rw [Nat.add_assoc, Nat.add_assoc] at same
  have equal := once (4 * l + i) (by omega) (4 * k + j) (by omega) same
  omega

/-- What a header with the low type byte of `PT_LOAD` does: five pushes, then the move. -/
theorem eachProgramHeader_copies (once : Once t (LOADER_STACK_TOP - 24) 24) {ebx ecx : Nat} (small : ecx < 2 ^ 32)
    (apart : ∀ k < P_END, cell t (ebx + k) ∉ stack t) (load : (read t m (ebx + P_TYPE)).toNat = PT_LOAD) :
    ∃ ms, ChangesOnly (stack t) m ms ∧ read32 t ms (slot 0) = ecx ∧
      eachProgramHeader t ret m ebx ecx =
        (move t (read32 t m (ebx + P_FILESZ)) ms (read32 t m (ebx + P_VADDR))
            ((read32 t m (ebx + P_OFFSET) + KERNEL_BASE_ADDR) % 2 ^ 32),
          read32 t (move t (read32 t m (ebx + P_FILESZ)) ms (read32 t m (ebx + P_VADDR))
            ((read32 t m (ebx + P_OFFSET) + KERNEL_BASE_ADDR) % 2 ^ 32)) (slot 0),
          read32 t m (ebx + P_FILESZ)) := by
  have field (m' : Memory) (changes : ChangesOnly (stack t) m m') (f : Nat) (inside : f + 4 ≤ P_END) :
      read32 t m' (ebx + f) = read32 t m (ebx + f) := by
    apply read32_congr changes
    rintro x ⟨k, low, rfl⟩
    rw [Nat.add_assoc]
    exact apart (f + k) (by omega)
  have pushed (m : Memory) (k v : Nat) (inside : k < 6) : ChangesOnly (stack t) m (write32 t m (slot k) v) :=
    (write32_changes m (slot k) v).mono (slot_cells inside)
  let size := read32 t m (ebx + P_FILESZ)
  let src := (read32 t m (ebx + P_OFFSET) + KERNEL_BASE_ADDR) % 2 ^ 32
  let dst := read32 t m (ebx + P_VADDR)
  let m1 := write32 t m (slot 4) size
  let m2 := write32 t m1 (slot 3) src
  let m3 := write32 t m2 (slot 2) dst
  let m4 := write32 t m3 (slot 1) ret
  let m5 := write32 t m4 (slot 0) ecx
  have first : ChangesOnly (stack t) m m1 := pushed m 4 size (by decide)
  have second : ChangesOnly (stack t) m m2 := first.trans (pushed m1 3 src (by decide))
  have last : ChangesOnly (stack t) m m5 :=
    ((second.trans (pushed m2 2 dst (by decide))).trans (pushed m3 1 ret (by decide))).trans (pushed m4 0 ecx (by decide))
  have saved : read32 t m5 (slot 0) = ecx := read32_write32 m4 (slot_once once (by decide)) small
  have edi : read32 t m5 (slot 2) = dst := by
    rw [slot_apart once m4 ecx (by decide) (by decide) (by decide), slot_apart once m3 ret (by decide) (by decide) (by decide)]
    exact read32_write32 m2 (slot_once once (by decide)) (read32_lt m _)
  have esi : read32 t m5 (slot 3) = src := by
    rw [slot_apart once m4 ecx (by decide) (by decide) (by decide), slot_apart once m3 ret (by decide) (by decide) (by decide),
      slot_apart once m2 dst (by decide) (by decide) (by decide)]
    exact read32_write32 m1 (slot_once once (by decide)) (Nat.mod_lt _ (by decide))
  have count : read32 t m5 (slot 4) = size := by
    rw [slot_apart once m4 ecx (by decide) (by decide) (by decide), slot_apart once m3 ret (by decide) (by decide) (by decide),
      slot_apart once m2 dst (by decide) (by decide) (by decide), slot_apart once m1 src (by decide) (by decide) (by decide)]
    exact read32_write32 m (slot_once once (by decide)) (read32_lt m _)
  refine ⟨m5, last, saved, ?_⟩
  have offset := field m1 first P_OFFSET (by decide)
  have vaddr := field m2 second P_VADDR (by decide)
  have called : eachProgramHeader t ret m ebx ecx =
      memCpy t (write32 t (write32 t (write32 t m1 (slot 3) ((read32 t m1 (ebx + P_OFFSET) + KERNEL_BASE_ADDR) % 2 ^ 32)) (slot 2)
        (read32 t (write32 t m1 (slot 3) ((read32 t m1 (ebx + P_OFFSET) + KERNEL_BASE_ADDR) % 2 ^ 32)) (ebx + P_VADDR)))
        (slot 1) ret) (slot 1) ecx := if_neg (not_not_intro load)
  rw [called, offset]
  show memCpy t (write32 t (write32 t m2 (slot 2) (read32 t m2 (ebx + P_VADDR))) (slot 1) ret) (slot 1) ecx = _
  rw [vaddr]
  show (move t (read32 t m5 (slot 4)) m5 (read32 t m5 (slot 2)) (read32 t m5 (slot 3)),
    read32 t (move t (read32 t m5 (slot 4)) m5 (read32 t m5 (slot 2)) (read32 t m5 (slot 3))) (slot 0),
    read32 t m5 (slot 4)) = _
  rw [count, edi, esi]

/-- The test reads one byte of a four-byte type. -/
theorem eachProgramHeader_skips {ebx ecx : Nat} (other : (read t m (ebx + P_TYPE)).toNat ≠ PT_LOAD) :
    eachProgramHeader t ret m ebx ecx = (m, ecx, 0) := if_pos other

/-! All headers. -/

/-- A header that is not loadable, but passes the test of `kernel_decode_elf` and has file bytes. -/
def Mistaken (t : Nat → Nat) (m : Memory) (i : Nat) : Prop :=
  i < phnum t m ∧ pType t m i ≠ PT_LOAD ∧ pType t m i % 2 ^ 8 = PT_LOAD ∧ pFilesz t m i ≠ 0

/-- What the first `n` headers may have changed. -/
def touched (t : Nat → Nat) (m : Memory) (n : Nat) : Set Nat :=
  stack t ∪ {x | ∃ i < n, Loadable t m i ∧ x ∈ cells t (pVaddr t m i) (pFilesz t m i)}

/-- `m'` is the memory after the first `n` headers. -/
structure Progress (t : Nat → Nat) (m m' : Memory) (n : Nat) : Prop where
  changes : ChangesOnly (touched t m n) m m'
  copied : ∀ i < n, Loadable t m i → ∀ k < pFilesz t m i,
    read t m' (pVaddr t m i + k) = read t m (KERNEL_BASE_ADDR + pOffset t m i + k)

theorem progress_start : Progress t m m 0 := by
  constructor
  · exact ChangesOnly.refl _ m
  · intro i none
    omega

theorem touched_mono {n k : Nat} (more : n ≤ k) : touched t m n ⊆ touched t m k := by
  apply Set.union_subset_union_right
  intro x ⟨i, low, loadable, inside⟩
  exact ⟨i, by omega, loadable, inside⟩

theorem phnum_small (m : Memory) : phnum t m < 2 ^ 16 := by
  have low := (read t m (KERNEL_BASE_ADDR + E_PHNUM)).toNat_lt
  have high := (read t m (KERNEL_BASE_ADDR + E_PHNUM + 1)).toNat_lt
  unfold phnum read16 word16
  omega

/-- A round with the pass over the header taken out. -/
theorem programHeaderLoop_succ (edx fuel ebx ecx : Nat) (m : Memory) (r : Memory × Nat × Nat)
    (pass : eachProgramHeader t ret m ebx ecx = r) :
    programHeaderLoop t ret edx (fuel + 1) m ebx ecx =
      if (r.2.1 + (2 ^ 32 - 1)) % 2 ^ 32 = 0 then some (r.1, [r.2.2])
      else (programHeaderLoop t ret edx fuel r.1 ((ebx + edx) % 2 ^ 32) ((r.2.1 + (2 ^ 32 - 1)) % 2 ^ 32)).map
        fun s => (s.1, r.2.2 :: s.2) := by
  subst pass
  rfl

/-- The first count is that of the first header. -/
theorem loop_head {edx fuel ebx ecx : Nat} {m m'' : Memory} {moved : List Nat}
    (runs : programHeaderLoop t ret edx fuel m ebx ecx = some (m'', moved)) :
    moved.getD 0 0 = (eachProgramHeader t ret m ebx ecx).2.2 := by
  cases fuel with
  | zero => exact absurd runs.symm (Option.some_ne_none _)
  | succ fuel =>
    rw [programHeaderLoop_succ edx fuel ebx ecx m _ rfl] at runs
    by_cases last : ((eachProgramHeader t ret m ebx ecx).2.1 + (2 ^ 32 - 1)) % 2 ^ 32 = 0
    · rw [if_pos last] at runs
      cases runs
      rfl
    · rw [if_neg last] at runs
      obtain ⟨s, -, same⟩ := Option.map_eq_some_iff.mp runs
      cases same
      rfl

/-- The pass over the last header. -/
theorem loop_last {n fuel : Nat} {m' : Memory}
    (kept : (eachProgramHeader t ret m' (header t m n) 1).2.1 = 1) :
    programHeaderLoop t ret (read16 t m (KERNEL_BASE_ADDR + E_PHENTSIZE)) (fuel + 1) m' (header t m n) 1 =
      some ((eachProgramHeader t ret m' (header t m n) 1).1, [(eachProgramHeader t ret m' (header t m n) 1).2.2]) := by
  rw [programHeaderLoop_succ _ _ _ _ _ _ rfl, kept]
  exact if_pos (by decide)

section Run

variable (image : Image t m len)
include image

theorem image_untouched (n : Nat) {x : Nat} (inside : x ∈ cells t KERNEL_BASE_ADDR len) : x ∉ touched t m n := by
  intro changed
  rcases changed with stacked | ⟨i, -, loadable, copied⟩
  · exact Set.disjoint_left.mp image.apartStack stacked inside
  · have within : x ∈ segment t m i := by
      obtain ⟨k, low, same⟩ := copied
      exact ⟨k, low.trans_le (image.sizes i loadable), same⟩
    exact Set.disjoint_left.mp (image.apartImage i loadable) within inside

theorem header_cell {i k : Nat} (inside : i < phnum t m) (low : k < P_END) :
    cell t (header t m i + k) ∈ cells t KERNEL_BASE_ADDR len := by
  have bound := image.headers i inside
  have base : KERNEL_BASE_ADDR ≤ header t m i := (Nat.le_add_right _ _).trans (Nat.le_add_right _ _)
  exact ⟨header t m i - KERNEL_BASE_ADDR + k, by omega, by congr 1; omega⟩

/-- The header itself is as it was. -/
theorem header_kept {n i : Nat} {m' : Memory} (progress : Progress t m m' n) (inside : i < phnum t m) {f : Nat}
    (field : f + 4 ≤ P_END) : read32 t m' (header t m i + f) = read32 t m (header t m i + f) := by
  apply read32_congr progress.changes
  rintro x ⟨k, low, rfl⟩
  rw [Nat.add_assoc]
  exact image_untouched image n (header_cell image inside (by omega))

theorem header_stack {i k : Nat} (inside : i < phnum t m) (low : k < P_END) : cell t (header t m i + k) ∉ stack t := by
  intro stacked
  exact Set.disjoint_left.mp image.apartStack stacked (header_cell image inside low)

theorem type_byte {n : Nat} {m' : Memory} (progress : Progress t m m' n) (inside : n < phnum t m) :
    (read t m' (header t m n + P_TYPE)).toNat = pType t m n % 2 ^ 8 := by
  rw [read_toNat, header_kept image progress inside (by decide)]
  rfl

theorem file_segment {i k : Nat} (loadable : Loadable t m i) (within : k < pFilesz t m i) :
    cell t (pVaddr t m i + k) ∈ segment t m i := mem_cells (within.trans_le (image.sizes i loadable))

theorem file_stack {i k : Nat} (loadable : Loadable t m i) (within : k < pFilesz t m i) :
    cell t (pVaddr t m i + k) ∉ stack t :=
  Set.disjoint_left.mp (image.apartSegment i loadable) (file_segment image loadable within)

theorem copied_cells {i : Nat} (loadable : Loadable t m i) :
    cells t (pVaddr t m i) (pFilesz t m i) ⊆ segment t m i := by
  rintro x ⟨k, within, rfl⟩
  exact file_segment image loadable within

theorem source_cell {i k : Nat} (loadable : Loadable t m i) (within : k < pFilesz t m i) :
    cell t (KERNEL_BASE_ADDR + pOffset t m i + k) ∈ cells t KERNEL_BASE_ADDR len := by
  have bound := image.contents i loadable
  exact ⟨pOffset t m i + k, by omega, by rw [Nat.add_assoc]⟩

/-- The move for a loadable header leaves the saved `ecx` alone. -/
theorem copy_stack {n src : Nat} {ms : Memory} (loadable : Loadable t m n) :
    read32 t (move t (pFilesz t m n) ms (pVaddr t m n) src) (slot 0) = read32 t ms (slot 0) := by
  apply read32_congr (move_changes _ _ _ _)
  intro x stacked copied
  exact Set.disjoint_left.mp (image.apartSegment n loadable) (copied_cells image loadable copied)
    (slot_cells (by decide) stacked)

/-- The move for a loadable header. -/
theorem copy_pass {n : Nat} {m' ms : Memory} (progress : Progress t m m' n) (loadable : Loadable t m n)
    (stacked : ChangesOnly (stack t) m' ms) :
    Progress t m (move t (pFilesz t m n) ms (pVaddr t m n) ((pOffset t m n + KERNEL_BASE_ADDR) % 2 ^ 32)) (n + 1) := by
  have before : ChangesOnly (touched t m n) m ms := progress.changes.trans (stacked.mono Set.subset_union_left)
  have moved := move_changes (t := t) (pFilesz t m n) ms (pVaddr t m n) ((pOffset t m n + KERNEL_BASE_ADDR) % 2 ^ 32)
  constructor
  · apply (before.mono (touched_mono (Nat.le_succ n))).trans
    apply moved.mono
    intro x inside
    exact .inr ⟨n, Nat.lt_succ_self n, loadable, inside⟩
  · intro i low loadable' k within
    rcases Nat.lt_succ_iff_lt_or_eq.mp low with earlier | rfl
    · have outside : cell t (pVaddr t m i + k) ∉ cells t (pVaddr t m n) (pFilesz t m n) := by
        intro inside
        exact Set.disjoint_left.mp (image.apart i n loadable' loadable (by omega)) (file_segment image loadable' within)
          (copied_cells image loadable inside)
      rw [read_congr moved outside, read_congr stacked (file_stack image loadable' within)]
      exact progress.copied i earlier loadable' k within
    · have source (k : Nat) : cell t ((pOffset t m i + KERNEL_BASE_ADDR) % 2 ^ 32 + k) =
          cell t (KERNEL_BASE_ADDR + pOffset t m i + k) := by
        rw [cell_wrap, Nat.add_comm (pOffset t m i)]
      rw [read_move _ ms ((image.once i loadable).part (image.sizes i loadable)) _ within]
      · show ms (cell t _) = m (cell t _)
        rw [source]
        exact before _ (image_untouched image i (source_cell image loadable within))
      · intro j low' inside
        rw [source] at inside
        exact Set.disjoint_left.mp (image.apartImage i loadable) (copied_cells image loadable inside)
          (source_cell image loadable low')

/-- A pass over a header that is not mistaken. -/
theorem Progress.pass {n ecx : Nat} {m' : Memory} (progress : Progress t m m' n) (inside : n < phnum t m)
    (small : ecx < 2 ^ 32) (right : ¬Mistaken t m n) :
    Progress t m (eachProgramHeader t ret m' (header t m n) ecx).1 (n + 1) ∧
      (eachProgramHeader t ret m' (header t m n) ecx).2.1 = ecx ∧
      (pType t m n ≠ PT_LOAD → (eachProgramHeader t ret m' (header t m n) ecx).2.2 = 0) := by
  have type := type_byte image progress inside
  by_cases load : pType t m n % 2 ^ 8 = PT_LOAD
  · have copied : ∃ ms, ChangesOnly (stack t) m' ms ∧ read32 t ms (slot 0) = ecx ∧
        eachProgramHeader t ret m' (header t m n) ecx = _ :=
      eachProgramHeader_copies image.onceStack small (fun k low => header_stack image inside low) (type.trans load)
    obtain ⟨ms, stacked, saved, copies⟩ := copied
    have offset : read32 t m' (header t m n + P_OFFSET) = pOffset t m n := header_kept image progress inside (by decide)
    have vaddr : read32 t m' (header t m n + P_VADDR) = pVaddr t m n := header_kept image progress inside (by decide)
    have filesz : read32 t m' (header t m n + P_FILESZ) = pFilesz t m n := header_kept image progress inside (by decide)
    rw [copies, offset, vaddr, filesz]
    have changes : ChangesOnly (touched t m n) m ms := progress.changes.trans (stacked.mono Set.subset_union_left)
    by_cases known : pType t m n = PT_LOAD
    · exact ⟨copy_pass image progress ⟨inside, known⟩ stacked, by rw [copy_stack image ⟨inside, known⟩, saved],
        fun other => absurd known other⟩
    · have empty : pFilesz t m n = 0 := by
        by_contra full
        exact right ⟨inside, known, load, full⟩
      rw [empty]
      refine ⟨⟨changes.mono (touched_mono (Nat.le_succ n)), ?_⟩, saved, fun _ => rfl⟩
      intro i low loadable k within
      rcases Nat.lt_succ_iff_lt_or_eq.mp low with before | rfl
      · have apart : cell t (pVaddr t m i + k) ∉ stack t :=
          file_stack image loadable within
        exact (read_congr stacked apart).trans (progress.copied i before loadable k within)
      · exact absurd loadable.2 known
  · have other : pType t m n ≠ PT_LOAD := by
      intro same
      rw [same] at load
      exact load (by decide)
    rw [eachProgramHeader_skips (by rw [type]; exact load)]
    refine ⟨⟨progress.changes.mono (touched_mono (Nat.le_succ n)), ?_⟩, rfl, fun _ => rfl⟩
    intro i low loadable
    rcases Nat.lt_succ_iff_lt_or_eq.mp low with before | rfl
    · exact progress.copied i before loadable
    · exact absurd loadable.2 other

/-- A mistaken header has its bytes moved. -/
theorem Mistaken.moved {n ecx : Nat} {m' : Memory} (progress : Progress t m m' n) (small : ecx < 2 ^ 32)
    (wrong : Mistaken t m n) : (eachProgramHeader t ret m' (header t m n) ecx).2.2 ≠ 0 := by
  have type := (type_byte image progress wrong.1).trans wrong.2.2.1
  have copied : ∃ ms, ChangesOnly (stack t) m' ms ∧ read32 t ms (slot 0) = ecx ∧
      eachProgramHeader t ret m' (header t m n) ecx = _ :=
    eachProgramHeader_copies image.onceStack small (fun k low => header_stack image wrong.1 low) type
  obtain ⟨ms, -, -, copies⟩ := copied
  have filesz : read32 t m' (header t m n + P_FILESZ) = pFilesz t m n := header_kept image progress wrong.1 (by decide)
  rw [copies, filesz]
  exact wrong.2.2.2

/-- `ebx` on the next header. -/
theorem header_next {n : Nat} (inside : n + 1 < phnum t m) :
    (header t m n + read16 t m (KERNEL_BASE_ADDR + E_PHENTSIZE)) % 2 ^ 32 = header t m (n + 1) := by
  have bound := image.headers (n + 1) inside
  have fits := image.fits
  have next : header t m (n + 1) = header t m n + read16 t m (KERNEL_BASE_ADDR + E_PHENTSIZE) := by
    unfold header
    rw [Nat.succ_mul, Nat.add_assoc _ (n * _)]
  rw [← next]
  apply Nat.mod_eq_of_lt
  unfold P_END at bound
  omega

/-- The pass over any other header. -/
theorem loop_more {n left fuel : Nat} {m' : Memory} (total : n + (left + 2) = phnum t m)
    (kept : (eachProgramHeader t ret m' (header t m n) (left + 2)).2.1 = left + 2) :
    programHeaderLoop t ret (read16 t m (KERNEL_BASE_ADDR + E_PHENTSIZE)) (fuel + 1) m' (header t m n) (left + 2) =
      (programHeaderLoop t ret (read16 t m (KERNEL_BASE_ADDR + E_PHENTSIZE)) fuel
        (eachProgramHeader t ret m' (header t m n) (left + 2)).1 (header t m (n + 1)) (left + 1)).map
        fun r => (r.1, (eachProgramHeader t ret m' (header t m n) (left + 2)).2.2 :: r.2) := by
  have small := phnum_small (t := t) m
  have less : (left + 2 + (2 ^ 32 - 1)) % 2 ^ 32 = left + 1 := by omega
  rw [programHeaderLoop_succ _ _ _ _ _ _ rfl, kept, header_next image (by omega), less]
  exact if_neg (Nat.succ_ne_zero left)

/-- The loop from header `n` on, when no header is mistaken. -/
theorem loop_runs {n left : Nat} {m' : Memory} (progress : Progress t m m' n) (total : n + (left + 1) = phnum t m)
    (right : ∀ i, ¬Mistaken t m i) :
    ∃ m'' moved, programHeaderLoop t ret (read16 t m (KERNEL_BASE_ADDR + E_PHENTSIZE)) (left + 1) m' (header t m n)
        (left + 1) = some (m'', moved) ∧ Progress t m m'' (phnum t m) ∧
      ∀ i, n + i < phnum t m → pType t m (n + i) ≠ PT_LOAD → moved.getD i 0 = 0 := by
  have small := phnum_small (t := t) m
  induction left generalizing n m' with
  | zero =>
    have pass : Progress t m (eachProgramHeader t ret m' (header t m n) 1).1 (n + 1) ∧ _ :=
      progress.pass image (by omega) (by decide) (right n)
    refine ⟨_, _, loop_last pass.2.1, ?_, ?_⟩
    · rw [← total]
      exact pass.1
    · intro i inside other
      have first : i = 0 := by omega
      subst first
      exact pass.2.2 other
  | succ left ih =>
    have pass : Progress t m (eachProgramHeader t ret m' (header t m n) (left + 2)).1 (n + 1) ∧ _ :=
      progress.pass image (by omega) (by omega) (right n)
    obtain ⟨m'', moved, runs, done, zero⟩ := ih pass.1 (by omega)
    refine ⟨m'', (eachProgramHeader t ret m' (header t m n) (left + 2)).2.2 :: moved, ?_, done, ?_⟩
    · rw [loop_more image total pass.2.1, runs]
      rfl
    · intro i inside other
      cases i with
      | zero => exact pass.2.2 other
      | succ i =>
        apply zero i (by omega)
        rw [Nat.add_assoc, Nat.add_comm 1]
        exact other

/-- A header that had nothing copied, unless loadable, is not mistaken. -/
theorem head_right {n ecx edx fuel : Nat} {m' m'' : Memory} {moved : List Nat} (progress : Progress t m m' n)
    (small : ecx < 2 ^ 32) (runs : programHeaderLoop t ret edx fuel m' (header t m n) ecx = some (m'', moved))
    (zero : n < phnum t m → pType t m n ≠ PT_LOAD → moved.getD 0 0 = 0) : ¬Mistaken t m n := by
  intro wrong
  have copied : (eachProgramHeader t ret m' (header t m n) ecx).2.2 ≠ 0 := wrong.moved image progress small
  rw [← loop_head runs] at copied
  exact copied (zero wrong.1 wrong.2.1)

/-- A run that copied nothing for other headers has met no mistaken one. -/
theorem loop_moved {n left fuel : Nat} {m' m'' : Memory} {moved : List Nat} (progress : Progress t m m' n)
    (total : n + (left + 1) = phnum t m)
    (runs : programHeaderLoop t ret (read16 t m (KERNEL_BASE_ADDR + E_PHENTSIZE)) fuel m' (header t m n) (left + 1) =
      some (m'', moved))
    (zero : ∀ i, n + i < phnum t m → pType t m (n + i) ≠ PT_LOAD → moved.getD i 0 = 0) :
    Progress t m m'' (phnum t m) ∧ ∀ i, n ≤ i → ¬Mistaken t m i := by
  have small := phnum_small (t := t) m
  induction left generalizing n m' fuel moved with
  | zero =>
    have head := head_right image progress (by decide) runs (zero 0)
    have pass : Progress t m (eachProgramHeader t ret m' (header t m n) 1).1 (n + 1) ∧ _ :=
      progress.pass image (by omega) (by decide) head
    cases fuel with
    | zero => exact absurd runs.symm (Option.some_ne_none _)
    | succ fuel =>
      rw [loop_last pass.2.1] at runs
      cases runs
      constructor
      · rw [← total]
        exact pass.1
      · intro i later wrong
        have inside := wrong.1
        have only : i = n := by omega
        subst only
        exact head wrong
  | succ left ih =>
    have head := head_right image progress (by omega) runs (zero 0)
    have pass : Progress t m (eachProgramHeader t ret m' (header t m n) (left + 2)).1 (n + 1) ∧ _ :=
      progress.pass image (by omega) (by omega) head
    cases fuel with
    | zero => exact absurd runs.symm (Option.some_ne_none _)
    | succ fuel =>
      rw [loop_more image total pass.2.1] at runs
      obtain ⟨⟨m3, rest⟩, runs', same⟩ := Option.map_eq_some_iff.mp runs
      cases same
      have later : Progress t m m3 (phnum t m) ∧ ∀ i, n + 1 ≤ i → ¬Mistaken t m i := by
        apply ih pass.1 (by omega) runs'
        intro i inside other
        rw [Nat.add_assoc, Nat.add_comm 1] at inside other
        exact zero (i + 1) inside other
      refine ⟨later.1, ?_⟩
      intro i reached
      rcases Nat.eq_or_lt_of_le reached with rfl | after
      · exact head
      · exact later.2 i after

/-- Behind the file bytes of a segment nothing is written. -/
theorem tail_kept {m' : Memory} (progress : Progress t m m' (phnum t m)) {i k : Nat} (loadable : Loadable t m i)
    (behind : pFilesz t m i ≤ k) (within : k < pMemsz t m i) :
    read t m' (pVaddr t m i + k) = read t m (pVaddr t m i + k) := by
  apply read_congr progress.changes
  intro changed
  have own : cell t (pVaddr t m i + k) ∈ segment t m i := mem_cells within
  rcases changed with stacked | ⟨j, -, loadable', copied⟩
  · exact Set.disjoint_left.mp (image.apartSegment i loadable) own stacked
  · by_cases same : i = j
    · subst same
      obtain ⟨l, low, equal⟩ := copied
      have := image.once i loadable k within l (low.trans_le (image.sizes i loadable)) equal
      omega
    · exact Set.disjoint_left.mp (image.apart i j loadable loadable' same) own (copied_cells image loadable' copied)

/-- The run as one loop over all headers. -/
theorem kernelDecodeElf_loop (fuel : Nat) : kernelDecodeElf t ret fuel m =
    programHeaderLoop t ret (read16 t m (KERNEL_BASE_ADDR + E_PHENTSIZE)) fuel m (header t m 0) (phnum t m) := by
  have bound := image.headers 0 image.some
  have fits := image.fits
  have first : (KERNEL_BASE_ADDR + read32 t m (KERNEL_BASE_ADDR + E_PHOFF)) % 2 ^ 32 = header t m 0 := by
    have start : header t m 0 = KERNEL_BASE_ADDR + read32 t m (KERNEL_BASE_ADDR + E_PHOFF) := by
      rw [header, Nat.zero_mul, Nat.add_zero]
    rw [start] at bound ⊢
    apply Nat.mod_eq_of_lt
    unfold P_END at bound
    omega
  rw [kernelDecodeElf, first]
  rfl

theorem kernelDecodeElf_loads (zeroed : ∀ i, Loadable t m i → ∀ k, pFilesz t m i ≤ k → k < pMemsz t m i →
      read t m (pVaddr t m i + k) = 0) (right : ∀ i, ¬Mistaken t m i) :
    ∃ fuel m' moved, kernelDecodeElf t ret fuel m = some (m', moved) ∧ Loaded t m m' moved := by
  have some := image.some
  obtain ⟨left, total⟩ : ∃ left, left + 1 = phnum t m := ⟨phnum t m - 1, by omega⟩
  have run : ∃ m' moved, programHeaderLoop t ret _ (left + 1) m (header t m 0) (left + 1) = _ ∧ _ :=
    loop_runs image progress_start (by omega) right
  obtain ⟨m', moved, runs, done, zero⟩ := run
  rw [total, ← kernelDecodeElf_loop image] at runs
  refine ⟨_, m', moved, runs, ?_, ?_, ?_⟩
  · intro i loadable k within
    by_cases file : k < pFilesz t m i
    · rw [if_pos file]
      exact done.copied i loadable.1 loadable k file
    · rw [if_neg file, tail_kept image done loadable (by omega) within]
      exact zeroed i loadable k (by omega) within
  · apply done.changes.mono
    apply Set.union_subset_union_right
    intro x ⟨i, _, loadable, copied⟩
    exact ⟨i, loadable, copied_cells image loadable copied⟩
  · intro i inside other
    apply zero i (by omega)
    rw [Nat.zero_add]
    exact other

theorem loaded_needs {fuel : Nat} {m' : Memory} {moved : List Nat}
    (runs : kernelDecodeElf t ret fuel m = some (m', moved)) (loaded : Loaded t m m' moved) :
    (∀ i, Loadable t m i → ∀ k, pFilesz t m i ≤ k → k < pMemsz t m i → read t m (pVaddr t m i + k) = 0) ∧
      ∀ i, ¬Mistaken t m i := by
  have some := image.some
  obtain ⟨left, total⟩ : ∃ left, left + 1 = phnum t m := ⟨phnum t m - 1, by omega⟩
  rw [kernelDecodeElf_loop image, ← total] at runs
  have met : Progress t m m' (phnum t m) ∧ ∀ i, 0 ≤ i → ¬Mistaken t m i := by
    apply loop_moved image progress_start (by omega) runs
    intro i inside other
    rw [Nat.zero_add] at inside other
    exact loaded.others i inside other
  refine ⟨?_, fun i => met.2 i (Nat.zero_le i)⟩
  intro i loadable k behind within
  have zero := loaded.segments i loadable k within
  rw [if_neg (by omega), tail_kept image met.1 loadable behind within] at zero
  exact zero

end Run

/-- The segments are loaded exactly when what they hold behind their file bytes was zero before, and no other
header has the low type byte of `PT_LOAD` and file bytes. -/
theorem kernelDecodeElf_loads_iff (image : Image t m len) :
    (∃ fuel m' moved, kernelDecodeElf t ret fuel m = some (m', moved) ∧ Loaded t m m' moved) ↔
      (∀ i, Loadable t m i → ∀ k, pFilesz t m i ≤ k → k < pMemsz t m i → read t m (pVaddr t m i + k) = 0) ∧
        ∀ i, ¬Mistaken t m i := by
  constructor
  · intro ⟨fuel, m', moved, runs, loaded⟩
    exact loaded_needs image runs loaded
  · intro ⟨zeroed, right⟩
    exact kernelDecodeElf_loads image zeroed right

/-! One segment of two file bytes and four bytes of memory, over memory that is zero, or not. -/

/-- The high half shows the memory that the low half shows. -/
def halves (a : Nat) : Nat := a % 2 ^ 30

def sampleBytes : List UInt8 :=
  List.replicate 28 0 ++ [52, 0, 0, 0] ++ List.replicate 10 0 ++ [32, 0, 1, 0] ++ List.replicate 6 0 ++
    [1, 0, 0, 0, 84, 0, 0, 0, 0, 0x15, 0, 0xC0, 0, 0x15, 0, 0, 2, 0, 0, 0, 4, 0, 0, 0, 5, 0, 0, 0, 0, 0x10, 0, 0] ++
    [0xF4, 0xEB]

def sample (dirty : Bool) : Memory := fun a =>
  if KERNEL_BASE_ADDR ≤ a then sampleBytes.getD (a - KERNEL_BASE_ADDR) 0 else if dirty then 1 else 0

theorem sample_phnum : ∀ dirty, phnum halves (sample dirty) = 1 := by decide +kernel
theorem sample_header : ∀ dirty, header halves (sample dirty) 0 = KERNEL_BASE_ADDR + 52 := by decide +kernel
theorem sample_type : ∀ dirty, pType halves (sample dirty) 0 = PT_LOAD := by decide +kernel
theorem sample_offset : ∀ dirty, pOffset halves (sample dirty) 0 = 84 := by decide +kernel
theorem sample_vaddr : ∀ dirty, pVaddr halves (sample dirty) 0 = 0xC0001500 := by decide +kernel
theorem sample_filesz : ∀ dirty, pFilesz halves (sample dirty) 0 = 2 := by decide +kernel
theorem sample_memsz : ∀ dirty, pMemsz halves (sample dirty) 0 = 4 := by decide +kernel

theorem sample_only {dirty : Bool} {i : Nat} (loadable : Loadable halves (sample dirty) i) : i = 0 := by
  have inside := loadable.1
  rw [sample_phnum] at inside
  omega

theorem sample_image (dirty : Bool) : Image halves (sample dirty) 86 := by
  have only {i : Nat} (loadable : Loadable halves (sample dirty) i) : i = 0 := sample_only loadable
  constructor
  · decide
  · decide
  · rw [sample_phnum]
    decide
  · intro i inside
    rw [sample_phnum] at inside
    have first : i = 0 := by omega
    subst first
    rw [sample_header]
    decide
  · intro i loadable
    cases only loadable
    rw [sample_offset, sample_filesz]
  · intro i loadable
    cases only loadable
    rw [sample_filesz, sample_memsz]
    decide
  · intro i loadable
    cases only loadable
    rw [sample_vaddr, sample_memsz]
    intro j low k low' same
    simp only [cell, halves] at same
    omega
  · intro j low k low' same
    simp only [cell, halves, LOADER_STACK_TOP] at same
    omega
  · apply Set.disjoint_left.mpr
    rintro x ⟨j, low, rfl⟩ ⟨k, low', same⟩
    simp only [cell, halves, LOADER_STACK_TOP, KERNEL_BASE_ADDR] at same
    omega
  · intro i loadable
    cases only loadable
    apply Set.disjoint_left.mpr
    rw [segment, sample_vaddr, sample_memsz]
    rintro x ⟨j, low, rfl⟩ ⟨k, low', same⟩
    simp only [cell, halves, KERNEL_BASE_ADDR] at same
    omega
  · intro i loadable
    cases only loadable
    apply Set.disjoint_left.mpr
    rw [segment, sample_vaddr, sample_memsz]
    rintro x ⟨j, low, rfl⟩ ⟨k, low', same⟩
    simp only [cell, halves, LOADER_STACK_TOP] at same
    omega
  · intro i j loadable loadable' different
    exact absurd ((only loadable).trans (only loadable').symm) different

/-- The image over memory that is not zero. -/
theorem dirty_not_loaded : Image halves (sample true) 86 ∧
    ¬∃ fuel m' moved, kernelDecodeElf halves 0x1100 fuel (sample true) = some (m', moved) ∧
      Loaded halves (sample true) m' moved := by
  refine ⟨sample_image true, ?_⟩
  intro ⟨fuel, m', moved, runs, loaded⟩
  have zero := (loaded_needs (sample_image true) runs loaded).1 0 ⟨by decide +kernel, sample_type true⟩ 2 (by decide +kernel)
    (by decide +kernel)
  exact absurd zero (by decide +kernel)

theorem kernelDecodeElf_loads_iff_sample : Image halves (sample false) 86 ∧
    ∃ fuel m' moved, kernelDecodeElf halves 0x1100 fuel (sample false) = some (m', moved) ∧
      Loaded halves (sample false) m' moved := by
  refine ⟨sample_image false, (kernelDecodeElf_loads_iff (sample_image false)).mpr ⟨?_, ?_⟩⟩
  · intro i loadable
    cases sample_only loadable
    rw [sample_vaddr, sample_filesz, sample_memsz]
    intro k behind within
    have cases : k = 2 ∨ k = 3 := by omega
    rcases cases with rfl | rfl
    · rfl
    · rfl
  · intro i wrong
    have inside := wrong.1
    rw [sample_phnum] at inside
    have first : i = 0 := by omega
    subst first
    exact wrong.2.1 (sample_type false)

end KOS.KernelElf
