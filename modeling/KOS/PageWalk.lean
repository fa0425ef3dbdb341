import KOS.Paging
import KOS.TwoLevel

/-! The page-table functions of `memory.c` as the processor executes them: every access goes through
the page tables that it edits. -/

namespace KOS.PageWalk
open KOS.PageBitmap KOS.Paging KOS.TwoLevel

def PTE_IDX (addr : Nat) : Nat := (addr &&& 0x003FF000) >>> 12

def pdePtr (vaddr : Nat) : Nat := (0xfffff000 + PDE_IDX vaddr * 4) % 2 ^ 32

def ptePtr (vaddr : Nat) : Nat := (0xffc00000 + ((vaddr &&& 0xffc00000) >>> 10) + PTE_IDX vaddr * 4) % 2 ^ 32

/-- `none` is a page fault, here and below. -/
def addrV2p (m : Phys) (dir vaddr : Nat) : Option Nat :=
  (load m dir (ptePtr vaddr)).map fun pte => ((pte &&& 0xfffff000) + (vaddr &&& 0xfff)) % 2 ^ 32

/-- `memset` with 0, word by word. -/
def clearWords (m : Phys) (dir vaddr : Nat) : Nat → Option Phys
  | 0 => some m
  | n + 1 => (store m dir vaddr 0).bind fun m => clearWords m dir (vaddr + 4) n

/-- The new page table, when there is none for `vaddr`. -/
def newTable (pp : PPool) (m : Phys) (dir vaddr : Nat) : Option (PPool × Phys) :=
  let (ptPaddr, pp) := palloc pp
  (store m dir (pdePtr vaddr) (ptPaddr ||| PG_US_U ||| PG_RW_W ||| PG_P_1)).bind fun m =>
    (clearWords m dir (ptePtr vaddr &&& 0xfffff000) (PG_SIZE / 4)).map fun m => (pp, m)

def pageTableAdd (pp : PPool) (m : Phys) (dir vaddr paddr : Nat) : Option (PPool × Phys) :=
  (load m dir (pdePtr vaddr)).bind fun pde =>
    (if present pde then some (pp, m) else newTable pp m dir vaddr).bind fun (pp, m) =>
      (store m dir (ptePtr vaddr) (paddr ||| PG_US_U ||| PG_RW_W ||| PG_P_1)).map fun m => (pp, m)

/-- Without its `invlpg`. -/
def pageTableRemove (m : Phys) (dir vaddr : Nat) : Option Phys :=
  (load m dir (ptePtr vaddr)).bind fun pte => store m dir (ptePtr vaddr) (pte &&& (2 ^ 32 - 1 - PG_P_1))

/-! The addresses. -/

variable {m m' : Phys} {dir v u p a : Nat}

theorem pdeIdx_dirIndex (addr : Nat) : PDE_IDX addr = dirIndex addr := pdeIdx_eq addr

theorem pteIdx_tableIndex (addr : Nat) : PTE_IDX addr = tableIndex addr := by
  unfold PTE_IDX
  rw [Nat.shiftRight_and_distrib, Nat.shiftRight_eq_div_pow]
  exact Nat.and_two_pow_sub_one_eq_mod (addr / 2 ^ 12) 10

/-- Bits 22 to 31, shifted to where they number the tables of the window. -/
theorem dirBits_eq (addr : Nat) : (addr &&& 0xffc00000) >>> 10 = dirIndex addr * 2 ^ 12 := by
  apply Nat.eq_of_testBit_eq
  intro i
  rw [Nat.testBit_shiftRight, Nat.testBit_and, Nat.testBit_mul_two_pow, dirIndex, Nat.testBit_mod_two_pow,
    Nat.testBit_div_two_pow, show 0xffc00000 = (2 ^ 10 - 1) * 2 ^ 22 by decide, Nat.testBit_mul_two_pow,
    Nat.testBit_two_pow_sub_one]
  by_cases high : 12 ≤ i
  · have shifted : 10 + i - 22 = i - 12 := by omega
    have bit : i - 12 + 22 = 10 + i := by omega
    rw [shifted, bit, decide_eq_true high, decide_eq_true (show 22 ≤ 10 + i by omega), Bool.true_and, Bool.true_and,
      Bool.and_comm]
  · rw [decide_eq_false high, decide_eq_false (show ¬22 ≤ 10 + i by omega), Bool.false_and, Bool.false_and,
      Bool.and_false]

theorem pdePtr_eq (vaddr : Nat) : pdePtr vaddr = 0xfffff000 + 4 * dirIndex vaddr := by
  have small := dirIndex_lt vaddr
  unfold pdePtr
  rw [pdeIdx_dirIndex]
  omega

theorem ptePtr_eq (vaddr : Nat) (low : dirIndex vaddr < 1023) :
    ptePtr vaddr = 0xffc00000 + 4096 * dirIndex vaddr + 4 * tableIndex vaddr := by
  have small := tableIndex_lt vaddr
  unfold ptePtr
  rw [pteIdx_tableIndex, dirBits_eq]
  omega

theorem window_index (i k : Nat) (table : i < 1024) (inside : k < 4096) :
    dirIndex (0xffc00000 + 4096 * i + k) = 1023 ∧ tableIndex (0xffc00000 + 4096 * i + k) = i ∧
      offset (0xffc00000 + 4096 * i + k) = k := by
  unfold dirIndex tableIndex offset
  omega

theorem dirIndex_low (low : v < 0xffc00000) : dirIndex v < 1023 := by
  unfold dirIndex
  omega

section SelfMap

variable (mapped : SelfMapped m dir)
include mapped

/-- The window shows the table of each present directory entry, at the place of its number. -/
theorem walk_table {i k : Nat} (table : i < 1024) (inside : k < 4096) (used : Present (m (dir + 4 * i))) :
    walk m dir (0xffc00000 + 4096 * i + k) = some (frame (m (dir + 4 * i)) + k) := by
  obtain ⟨window, index, rest⟩ := window_index i k table inside
  rw [mapped.walk_window window, index, rest, if_pos used]

theorem walk_pdePtr (v : Nat) : walk m dir (pdePtr v) = some (pdeAt dir v) := by
  have small := dirIndex_lt v
  have place : pdePtr v = 0xffc00000 + 4096 * 1023 + 4 * dirIndex v := by rw [pdePtr_eq]
  rw [place, walk_table mapped (by decide) (by omega) mapped.present, mapped.self, pdeAt]

theorem walk_ptePtr (low : dirIndex v < 1023) (used : Present (m (pdeAt dir v))) :
    walk m dir (ptePtr v) = pteAt m dir v := by
  have small := tableIndex_lt v
  rw [ptePtr_eq v low, walk_table mapped (by omega) (by omega) used, pteAt_of_present used, pdeAt]

theorem load_ptePtr (low : dirIndex v < 1023) (at_ : pteAt m dir v = some a) : load m dir (ptePtr v) = some (m a) := by
  by_cases used : Present (m (pdeAt dir v))
  · rw [load, walk_ptePtr mapped low used, at_, Option.map_some]
  · rw [pteAt_of_absent used] at at_
    cases at_

theorem store_ptePtr (w : Nat) (low : dirIndex v < 1023) (at_ : pteAt m dir v = some a) :
    store m dir (ptePtr v) w = some (Function.update m a w) := by
  by_cases used : Present (m (pdeAt dir v))
  · rw [store, walk_ptePtr mapped low used, at_, Option.map_some]
  · rw [pteAt_of_absent used] at at_
    cases at_

/-- Clearing a table through its own window, while the walk goes through the directory. -/
theorem clearWords_table {i t k : Nat} (n : Nat) (table : i < 1023) (used : Present (m (dir + 4 * i)))
    (points : frame (m (dir + 4 * i)) = t) (inside : k + n ≤ 1024) :
    clearWords m dir (0xffc00000 + 4096 * i + 4 * k) n = some (zeroWords m (t + 4 * k) n) := by
  induction n generalizing m k with
  | zero => rfl
  | succ n ih =>
    have apart : ∀ j < 1024, t + 4 * k ≠ dir + 4 * j := by
      have other := mapped.only i table used
      have aligned := mapped.aligned
      have aligned' := frame_aligned (m (dir + 4 * i))
      intro j _
      omega
    have same : ∀ j < 1024, Function.update m (t + 4 * k) 0 (dir + 4 * j) = m (dir + 4 * j) := fun j below =>
      Function.update_of_ne (apart j below).symm 0 m
    have place := walk_table mapped (i := i) (k := 4 * k) (by omega) (by omega) used
    have next := ih (m := Function.update m (t + 4 * k) 0) (k := k + 1) (mapped.congr same)
      (by rw [same i (by omega)]; exact used) (by rw [same i (by omega)]; exact points) (by omega)
    rw [clearWords, store, place, points, Option.map_some, Option.bind_some, zeroWords]
    exact next

theorem addrV2p_walk (low : dirIndex v < 1023) (at_ : walk m dir v = some a) : addrV2p m dir v = some a := by
  by_cases used : Present (m (pdeAt dir v))
  · have entry_ := pteAt_of_present used
    rw [walk_of_pteAt entry_] at at_
    by_cases backed : Present (m (frame (m (pdeAt dir v)) + 4 * tableIndex v))
    · rw [if_pos backed] at at_
      rw [addrV2p, load_ptePtr mapped low entry_, Option.map_some, mask_page]
      have fits := frame_lt (m (frame (m (pdeAt dir v)) + 4 * tableIndex v))
      have rest : v &&& 0xfff = offset v := Nat.and_two_pow_sub_one_eq_mod v 12
      have small : offset v < 2 ^ 12 := Nat.mod_lt _ (by decide)
      unfold frame at *
      rw [rest, Nat.mod_eq_of_lt (by omega)]
      exact at_
    · rw [if_neg backed] at at_
      cases at_
  · rw [walk_of_absent used] at at_
    cases at_

end SelfMap

/-- What `palloc` returns is aligned where the pool is. -/
theorem frame_entry {paddr : Nat} (aligned : paddr % PG_SIZE = 0) (small : paddr < 2 ^ 32) :
    frame (entry paddr) = paddr := by
  have masked := entry_frame aligned small
  rwa [mask_page] at masked

theorem present_entry {paddr : Nat} (aligned : paddr % PG_SIZE = 0) : Present (entry paddr) :=
  (present_iff _).mp (entry_present aligned)

theorem palloc_lt (pp : PPool) : (palloc pp).1 < 2 ^ 32 := by
  unfold palloc
  rcases bitmapAcquire pp.paddrBitmap 1 with ⟨picked, btmp⟩
  cases picked with
  | none => exact Nat.two_pow_pos 32
  | some btmpIdx => exact Nat.mod_lt _ (Nat.two_pow_pos 32)

/-- The branch for a missing table installs an empty one. -/
theorem newTable_installs (mapped : SelfMapped m dir) (pp : PPool) (low : dirIndex v < 1023)
    (spare : Spare m dir (palloc pp).1) :
    newTable pp m dir v = some ((palloc pp).2, install m dir v (entry (palloc pp).1)) := by
  have points : frame (entry (palloc pp).1) = (palloc pp).1 := frame_entry spare.aligned (palloc_lt pp)
  have spare' : Spare m dir (frame (entry (palloc pp).1)) := by
    rw [points]
    exact spare
  have small := tableIndex_lt v
  have page : ptePtr v &&& 0xfffff000 = 0xffc00000 + 4096 * dirIndex v + 4 * 0 := by
    rw [mask_page, ptePtr_eq v low]
    omega
  have entry_ : Function.update m (pdeAt dir v) (entry (palloc pp).1) (dir + 4 * dirIndex v) = entry (palloc pp).1 :=
    Function.update_self ..
  have cleared := clearWords_table (mapped.setPde low spare'.apart) (k := 0) 1024 low
    (by rw [entry_]; exact present_entry spare.aligned) rfl (by decide)
  rw [entry_] at cleared
  unfold newTable
  dsimp only
  have word : (palloc pp).1 ||| PG_US_U ||| PG_RW_W ||| PG_P_1 = entry (palloc pp).1 := rfl
  have words : PG_SIZE / 4 = 1024 := by decide
  rw [store, walk_pdePtr mapped, Option.map_some, Option.bind_some, page, word, words, cleared, Option.map_some,
    install, Nat.mul_zero, Nat.add_zero]

/-- `u` and `v` are translated by the same entry: the same table frame and the same index. -/
def SameEntry (m : Phys) (dir u v : Nat) : Prop := ∃ a, pteAt m dir u = some a ∧ pteAt m dir v = some a

/-- What `page_table_add` leaves: the page of `v` on the frame `p`, and other pages where they were. -/
structure Added (m m' : Phys) (dir v p : Nat) : Prop where
  mapped : SelfMapped m' dir
  here : ∀ u, u / PG_SIZE = v / PG_SIZE → walk m' dir u = some (p + u % PG_SIZE)
  others : ∀ u < 0xffc00000, ¬SameEntry m' dir u v → walk m' dir u = walk m dir u

theorem pteAt_of_page (same : u / PG_SIZE = v / PG_SIZE) : pteAt m dir u = pteAt m dir v := by
  have indices : dirIndex u = dirIndex v ∧ tableIndex u = tableIndex v := by
    unfold dirIndex tableIndex
    unfold PG_SIZE at same
    omega
  rw [pteAt, pdeAt, indices.1, indices.2, pteAt, pdeAt]

/-- The last store of `page_table_add`. -/
theorem added_of_table (mapped : SelfMapped m dir) (low : dirIndex v < 1023) (at_ : pteAt m dir v = some a)
    (aligned : p % PG_SIZE = 0) (small : p < 2 ^ 32) : Added m (Function.update m a (entry p)) dir v p := by
  have outside := mapped.pteAt_outside low at_
  have same : ∀ u, pteAt (Function.update m a (entry p)) dir u = pteAt m dir u := fun u =>
    pteAt_congr (pde_update outside u)
  constructor
  · exact mapped.congr fun i inside => Function.update_of_ne (outside i inside).symm _ _
  · intro u page
    rw [walk_update_self outside ((pteAt_of_page page).trans at_), if_pos (present_entry aligned),
      frame_entry aligned small]
    rfl
  · intro u _ apart
    apply walk_update_other outside
    intro shared
    apply apart
    exact ⟨a, (same u).trans shared, (same v).trans at_⟩

theorem pageTableAdd_adds (mapped : SelfMapped m dir) (pp : PPool) (low : dirIndex v < 1023)
    (table : Present (m (pdeAt dir v)) ∨ Spare m dir (palloc pp).1) (aligned : p % PG_SIZE = 0) (small : p < 2 ^ 32) :
    ∃ pp' m', pageTableAdd pp m dir v p = some (pp', m') ∧ Added m m' dir v p := by
  have pde : load m dir (pdePtr v) = some (m (pdeAt dir v)) := by
    rw [load, walk_pdePtr mapped, Option.map_some]
  have word : p ||| PG_US_U ||| PG_RW_W ||| PG_P_1 = entry p := rfl
  unfold pageTableAdd
  rw [pde, Option.bind_some, word]
  by_cases used : Present (m (pdeAt dir v))
  · have at_ := pteAt_of_present used
    rw [if_pos ((present_iff _).mpr used), Option.bind_some]
    dsimp only
    rw [store_ptePtr mapped _ low at_]
    exact ⟨pp, _, rfl, added_of_table mapped low at_ aligned small⟩
  · have spare := table.resolve_left used
    have points := frame_entry spare.aligned (palloc_lt pp)
    have spare' : Spare m dir (frame (entry (palloc pp).1)) := by
      rw [points]
      exact spare
    have present := present_entry spare.aligned
    have mapped' := install_selfMapped (w := entry (palloc pp).1) mapped low spare'
    have at_ := install_pteAt mapped present spare' v rfl
    have added := added_of_table mapped' low at_ aligned small
    rw [if_neg (fun set => used ((present_iff _).mp set)), newTable_installs mapped pp low spare, Option.bind_some]
    dsimp only
    rw [store_ptePtr mapped' _ low at_]
    refine ⟨_, _, rfl, added.mapped, added.here, ?_⟩
    intro u below apart
    rw [added.others u below apart]
    exact walk_install mapped present spare' used (dirIndex_low below)

/-- What `page_table_remove` leaves: the page of `v` unmapped, and other pages where they were. -/
structure Removed (m m' : Phys) (dir v : Nat) : Prop where
  mapped : SelfMapped m' dir
  here : walk m' dir v = none
  others : ∀ u < 0xffc00000, ¬SameEntry m dir u v → walk m' dir u = walk m dir u

theorem pageTableRemove_removes (mapped : SelfMapped m dir) (low : dirIndex v < 1023) (used : Present (m (pdeAt dir v))) :
    ∃ m', pageTableRemove m dir v = some m' ∧ Removed m m' dir v := by
  have at_ := pteAt_of_present used
  generalize frame (m (pdeAt dir v)) + 4 * tableIndex v = a at at_
  have outside := mapped.pteAt_outside low at_
  have absent : ¬Present (m a &&& (2 ^ 32 - 1 - PG_P_1)) := by
    intro set
    have cleared := removed_absent (m a)
    rw [(present_iff _).mpr set] at cleared
    cases cleared
  unfold pageTableRemove
  rw [load_ptePtr mapped low at_, Option.bind_some, store_ptePtr mapped _ low at_]
  refine ⟨_, rfl, ?_, ?_, ?_⟩
  · exact mapped.congr fun i inside => Function.update_of_ne (outside i inside).symm _ _
  · rw [walk_update_self outside at_, if_neg absent]
  · intro u _ apart
    apply walk_update_other outside
    intro shared
    exact apart ⟨a, shared, at_⟩

/-- Without a table for `v` there is no entry to remove. -/
theorem pageTableRemove_faults (mapped : SelfMapped m dir) (low : dirIndex v < 1023) (absent : ¬Present (m (pdeAt dir v))) :
    pageTableRemove m dir v = none := by
  have small := tableIndex_lt v
  obtain ⟨window, index, -⟩ := window_index (dirIndex v) (4 * tableIndex v) (by omega) (by omega)
  have fault : walk m dir (ptePtr v) = none := by
    rw [ptePtr_eq v low, mapped.walk_window window, index]
    exact if_neg absent
  rw [pageTableRemove, load, fault, Option.map_none, Option.bind_none]

/-- The recursive mapping is the processor's walk. -/
theorem recursive_mapping (mapped : SelfMapped m dir) (pp : PPool) (low : v < 0xffc00000) (aligned : p % PG_SIZE = 0)
    (small : p < 2 ^ 32) :
    walk m dir (pdePtr v) = some (pdeAt dir v) ∧
      (Present (m (pdeAt dir v)) → walk m dir (ptePtr v) = some (frame (m (pdeAt dir v)) + 4 * tableIndex v)) ∧
      (∀ a, walk m dir v = some a → addrV2p m dir v = some a) ∧
      (Present (m (pdeAt dir v)) ∨ Spare m dir (palloc pp).1 →
        ∃ pp' m', pageTableAdd pp m dir v p = some (pp', m') ∧ Added m m' dir v p) ∧
      (Present (m (pdeAt dir v)) → ∃ m', pageTableRemove m dir v = some m' ∧ Removed m m' dir v) ∧
      (¬Present (m (pdeAt dir v)) → pageTableRemove m dir v = none) := by
  have below := dirIndex_low low
  refine ⟨walk_pdePtr mapped v, ?_, ?_, ?_, ?_, ?_⟩
  · intro used
    rw [walk_ptePtr mapped below used, pteAt_of_present used]
  · intro a at_
    exact addrV2p_walk mapped below at_
  · intro table
    exact pageTableAdd_adds mapped pp below table aligned small
  · intro used
    exact pageTableRemove_removes mapped below used
  · intro absent
    exact pageTableRemove_faults mapped below absent

/-- The directory at 1 MiB with one table behind it, as the loader lays them out. -/
def loaded : Phys := fun a =>
  if a = 0x100000 + 4 * 1023 then 0x100007 else if a = 0x100000 + 4 * 768 then 0x101007 else 0

theorem loaded_entries {i : Nat} (below : i < 1023) (present : Present (loaded (0x100000 + 4 * i))) : i = 768 := by
  unfold loaded at present
  rw [if_neg (by omega)] at present
  by_contra other
  rw [if_neg (by omega)] at present
  exact absurd present (by decide)

theorem loaded_selfMapped : SelfMapped loaded 0x100000 := by
  constructor
  · decide
  · decide
  · decide
  · intro i below present
    rw [loaded_entries below present]
    decide

def loadedPool : PPool := ⟨0x200000, 0x8000, ⟨fun _ => 0, 1⟩⟩

/-- The first free frame can be a table. -/
theorem loadedPool_spare : Spare loaded 0x100000 (palloc loadedPool).1 := by
  constructor
  · decide
  · decide
  · intro i inside present
    by_cases last : i = 1023
    · rw [last]
      decide
    · rw [loaded_entries (by omega) present]
      decide

/-- A page in a table that is there, and one whose table has to be made first; without one there is nothing to remove. -/
theorem loaded_adds :
    (∃ pp' m', pageTableAdd loadedPool loaded 0x100000 0xC0100123 0x200000 = some (pp', m') ∧
      Added loaded m' 0x100000 0xC0100123 0x200000) ∧
    (∃ pp' m', pageTableAdd loadedPool loaded 0x100000 0xC0400123 0x201000 = some (pp', m') ∧
      Added loaded m' 0x100000 0xC0400123 0x201000) ∧
    pageTableRemove loaded 0x100000 0xC0400123 = none := by
  obtain ⟨-, -, -, adds, -, -⟩ :=
    recursive_mapping (v := 0xC0100123) (p := 0x200000) loaded_selfMapped loadedPool (by decide) (by decide) (by decide)
  obtain ⟨-, -, -, makes, -, faults⟩ :=
    recursive_mapping (v := 0xC0400123) (p := 0x201000) loaded_selfMapped loadedPool (by decide) (by decide) (by decide)
  exact ⟨adds (.inl (by decide)), makes (.inr loadedPool_spare), faults (by decide)⟩

/-! The page table by virtual page, as the allocator's model has it. -/

def Kernel (v : Nat) : Prop := 768 ≤ dirIndex v ∧ dirIndex v < 1023 ∧ v < 2 ^ 32

/-- The entries in memory are those of `k`, and no two tables of the kernel are one frame. -/
structure Agrees (m : Phys) (dir : Nat) (k : Pages) : Prop where
  pde : ∀ i < 1024, k.pde i = m (dir + 4 * i)
  pte : ∀ v, Kernel v → ∀ a, pteAt m dir v = some a → k.pte (v / PG_SIZE) = m a
  unshared : ∀ u v, Kernel u → Kernel v → ∀ a, pteAt m dir u = some a → pteAt m dir v = some a → u / PG_SIZE = v / PG_SIZE

variable {k : Pages}

theorem Agrees.pde_at (agrees : Agrees m dir k) (v : Nat) : k.pde (PDE_IDX v) = m (pdeAt dir v) := by
  rw [pdeIdx_dirIndex, agrees.pde _ (dirIndex_lt v), pdeAt]

/-- A new word in the entry of `v` is a new entry of the page. -/
theorem Agrees.setPte (agrees : Agrees m dir k) (mapped : SelfMapped m dir) (kernel : Kernel v)
    (at_ : pteAt m dir v = some a) (w : Nat) :
    Agrees (Function.update m a w) dir { k with pte := Function.update k.pte (v / PG_SIZE) w } := by
  have outside := mapped.pteAt_outside kernel.2.1 at_
  have same : ∀ u, pteAt (Function.update m a w) dir u = pteAt m dir u := fun u => pteAt_congr (pde_update outside u)
  constructor
  · intro i inside
    rw [Function.update_of_ne (outside i inside).symm]
    exact agrees.pde i inside
  · intro u kernel' b at'
    rw [same] at at'
    change Function.update k.pte (v / PG_SIZE) w (u / PG_SIZE) = _
    by_cases page : u / PG_SIZE = v / PG_SIZE
    · rw [pteAt_of_page page, at_] at at'
      obtain rfl := Option.some.inj at'
      rw [page, Function.update_self, Function.update_self]
    · have other : b ≠ a := by
        rintro rfl
        exact page (agrees.unshared u v kernel' kernel b at' at_)
      rw [Function.update_of_ne page, Function.update_of_ne other]
      exact agrees.pte u kernel' b at'
  · intro u u' kernel' kernel'' b first second
    rw [same] at first second
    exact agrees.unshared u u' kernel' kernel'' b first second

theorem kernel_page (kernel : Kernel v) : v / PG_SIZE / 1024 = dirIndex v ∧ v / PG_SIZE % 1024 = tableIndex v := by
  have small := kernel.2.2
  unfold dirIndex tableIndex PG_SIZE
  omega

/-- An empty table where there was none makes the entries of its pages zero. -/
theorem Agrees.newTable (agrees : Agrees m dir k) (mapped : SelfMapped m dir) (v : Nat)
    (pp : PPool) {w : Nat} (present : Present w) (spare : Spare m dir (frame w)) :
    Agrees (install m dir v w) dir
      { k with
        pp := pp
        pde := Function.update k.pde (PDE_IDX v) w
        pte := fun page => if page / 1024 = PDE_IDX v then 0 else k.pte page } := by
  have other : ∀ u, dirIndex u ≠ dirIndex v → pteAt (install m dir v w) dir u = pteAt m dir u := by
    intro u different
    apply pteAt_congr
    unfold pdeAt
    rw [install_dir mapped spare (dirIndex_lt u), if_neg different]
  have table : ∀ u, dirIndex u = dirIndex v → pteAt (install m dir v w) dir u = some (frame w + 4 * tableIndex u) :=
    install_pteAt mapped present spare
  constructor
  · intro i inside
    rw [install_dir mapped spare inside]
    change Function.update k.pde (PDE_IDX v) w i = _
    by_cases here : i = dirIndex v
    · rw [if_pos here, here, pdeIdx_dirIndex, Function.update_self]
    · rw [if_neg here, pdeIdx_dirIndex, Function.update_of_ne here]
      exact agrees.pde i inside
  · intro u kernel' b at_
    change (if u / PG_SIZE / 1024 = PDE_IDX v then 0 else k.pte (u / PG_SIZE)) = _
    rw [(kernel_page kernel').1, pdeIdx_dirIndex]
    by_cases here : dirIndex u = dirIndex v
    · rw [table u here] at at_
      obtain rfl := Option.some.inj at_
      rw [if_pos here, install_zero (tableIndex_lt u)]
    · rw [other u here] at at_
      rw [if_neg here, agrees.pte u kernel' b at_, install_pte mapped spare kernel'.2.1 at_]
  · intro u u' kernel' kernel'' b first second
    by_cases here : dirIndex u = dirIndex v <;> by_cases here' : dirIndex u' = dirIndex v
    · rw [table u here] at first
      rw [table u' here'] at second
      have same := Option.some.inj (first.trans second.symm)
      have page := kernel_page kernel'
      have page' := kernel_page kernel''
      omega
    · rw [table u here] at first
      rw [other u' here'] at second
      exact absurd (Option.some.inj first).symm (spare.not_entry second _ (tableIndex_lt u))
    · rw [other u here] at first
      rw [table u' here'] at second
      exact absurd (Option.some.inj second).symm (spare.not_entry first _ (tableIndex_lt u'))
    · rw [other u here] at first
      rw [other u' here'] at second
      exact agrees.unshared u u' kernel' kernel'' b first second

/-- The allocator's `pageTableAdd` is what `page_table_add` does to the tables in memory. -/
theorem pageTableAdd_agrees (agrees : Agrees m dir k) (mapped : SelfMapped m dir) (kernel : Kernel v)
    (table : Present (m (pdeAt dir v)) ∨ Spare m dir (palloc k.pp).1) :
    ∃ m', pageTableAdd k.pp m dir v p = some ((Paging.pageTableAdd k v p).pp, m') ∧
      Agrees m' dir (Paging.pageTableAdd k v p) := by
  have low := kernel.2.1
  have pde : load m dir (pdePtr v) = some (m (pdeAt dir v)) := by
    rw [load, walk_pdePtr mapped, Option.map_some]
  have word : p ||| PG_US_U ||| PG_RW_W ||| PG_P_1 = entry p := rfl
  unfold pageTableAdd Paging.pageTableAdd
  rw [pde, Option.bind_some, agrees.pde_at, word]
  by_cases used : Present (m (pdeAt dir v))
  · have at_ := pteAt_of_present used
    rw [if_pos ((present_iff _).mpr used), Option.bind_some, if_pos ((present_iff _).mpr used)]
    dsimp only
    rw [store_ptePtr mapped _ low at_]
    exact ⟨_, rfl, agrees.setPte mapped kernel at_ _⟩
  · have spare := table.resolve_left used
    have spare' : Spare m dir (frame (entry (palloc k.pp).1)) := by
      rw [frame_entry spare.aligned (palloc_lt k.pp)]
      exact spare
    have present := present_entry spare.aligned
    have mapped' := install_selfMapped (w := entry (palloc k.pp).1) mapped low spare'
    have at_ := install_pteAt mapped present spare' v rfl
    have absent : ¬Paging.present (m (pdeAt dir v)) = true := fun set => used ((present_iff _).mp set)
    rw [if_neg absent, if_neg absent, newTable_installs mapped k.pp low spare, Option.bind_some]
    dsimp only
    rw [store_ptePtr mapped' _ low at_]
    exact ⟨_, rfl, (agrees.newTable mapped v (palloc k.pp).2 present spare').setPte mapped' kernel at_ _⟩

theorem pageTableRemove_agrees (agrees : Agrees m dir k) (mapped : SelfMapped m dir) (kernel : Kernel v)
    (at_ : pteAt m dir v = some a) :
    ∃ m', pageTableRemove m dir v = some m' ∧ Agrees m' dir (Paging.pageTableRemove k v) := by
  unfold pageTableRemove Paging.pageTableRemove
  rw [load_ptePtr mapped kernel.2.1 at_, Option.bind_some, store_ptePtr mapped _ kernel.2.1 at_,
    agrees.pte v kernel a at_]
  exact ⟨_, rfl, agrees.setPte mapped kernel at_ _⟩

theorem addrV2p_agrees (agrees : Agrees m dir k) (mapped : SelfMapped m dir) (kernel : Kernel v)
    (at_ : pteAt m dir v = some a) : addrV2p m dir v = some (Paging.addrV2p k v) := by
  rw [addrV2p, load_ptePtr mapped kernel.2.1 at_, Option.map_some, Paging.addrV2p, agrees.pte v kernel a at_]

end KOS.PageWalk
