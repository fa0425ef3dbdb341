import KOS.TwoLevel

/-! `setup_page` of `loader.s`: the directory and the first page table the kernel boots with. It runs
before paging is on, on the words of physical memory. -/

namespace KOS.SetupPage
open KOS.TwoLevel

def PAGE_DIR_ADDR : Nat := 0x100000
def PAGE_TABLE_ADDR : Nat := 0x101000

def PG_P : Nat := 1
def PG_RW_W : Nat := 1 <<< 1
def PG_US_S : Nat := 0 <<< 2

/-- `mov [ebx + esi * 4], eax; inc esi; add eax, step; loop`, with `ecx` passes to go. -/
def storeLoop (step : Nat) : Nat → Phys → Nat → Nat → Nat → Phys
  | 0, m, _, _, _ => m
  | ecx + 1, m, ebx, esi, eax =>
      storeLoop step ecx (Function.update m (ebx + esi * 4) eax) ebx (esi + 1) ((eax + step) % 2 ^ 32)

def clearPageDirLoop : Nat → Phys → Nat → Nat → Nat → Phys := storeLoop 0
def createPdeLoop : Nat → Phys → Nat → Nat → Nat → Phys := storeLoop 0x1000
def createPteLoop : Nat → Phys → Nat → Nat → Nat → Phys := storeLoop 0x1000

def setupPage (m : Phys) : Phys :=
  let m := clearPageDirLoop 1024 m PAGE_DIR_ADDR 0 0
  let eax := PAGE_TABLE_ADDR ||| (PG_US_S ||| PG_RW_W ||| PG_P)
  let m := Function.update m (PAGE_DIR_ADDR + 0 * 4) eax
  let m := Function.update m (PAGE_DIR_ADDR + 768 * 4) eax
  let eax := (eax + 0x1000) % 2 ^ 32
  let m := createPdeLoop 254 m PAGE_DIR_ADDR 769 eax
  let eax := PAGE_DIR_ADDR ||| (PG_US_S ||| PG_RW_W ||| PG_P)
  let m := Function.update m (PAGE_DIR_ADDR + 1023 * 4) eax
  let eax := 0 ||| (PG_US_S ||| PG_RW_W ||| PG_P)
  createPteLoop 256 m PAGE_TABLE_ADDR 0 eax

/-! What the loops store. -/

theorem storeLoop_outside (step n : Nat) (m : Phys) {ebx esi a : Nat} (eax : Nat)
    (outside : ∀ k < n, a ≠ ebx + (esi + k) * 4) : storeLoop step n m ebx esi eax a = m a := by
  induction n generalizing m esi eax with
  | zero => rfl
  | succ n ih =>
    rw [storeLoop, ih]
    · exact Function.update_of_ne (outside 0 (Nat.succ_pos n)) _ _
    · intro k inside
      have apart := outside (k + 1) (by omega)
      rw [show esi + 1 + k = esi + (k + 1) by omega]
      exact apart

theorem storeLoop_inside (step n : Nat) (m : Phys) (ebx esi : Nat) {eax k : Nat} (inside : k < n) (small : eax < 2 ^ 32) :
    storeLoop step n m ebx esi eax (ebx + (esi + k) * 4) = (eax + k * step) % 2 ^ 32 := by
  induction n generalizing m esi eax k with
  | zero => omega
  | succ n ih =>
    rw [storeLoop]
    cases k with
    | zero =>
      rw [storeLoop_outside step n _ _ (by intro k _; omega), Nat.zero_mul, Nat.add_zero, Nat.add_zero,
        Nat.mod_eq_of_lt small]
      exact Function.update_self ..
    | succ k =>
      rw [show esi + (k + 1) = esi + 1 + k by omega, ih _ _ (by omega) (Nat.mod_lt _ (by decide)), Nat.mod_add_mod,
        Nat.succ_mul, Nat.add_assoc, Nat.add_comm step]

/-- Table frames: entries 0 and 768 share the first table, 769 to 1022 have one each, and the last is the directory. -/
def tableFrame (i : Nat) : Nat :=
  if i = 1023 then PAGE_DIR_ADDR else PAGE_TABLE_ADDR + (i - 768) * 0x1000

def Used (i : Nat) : Prop := i = 0 ∨ 768 ≤ i

instance : DecidablePred Used := fun i => inferInstanceAs (Decidable (i = 0 ∨ 768 ≤ i))

theorem flags_dir : PAGE_DIR_ADDR ||| (PG_US_S ||| PG_RW_W ||| PG_P) = 0x100003 := by decide

theorem flags_table : PAGE_TABLE_ADDR ||| (PG_US_S ||| PG_RW_W ||| PG_P) = 0x101003 := by decide

theorem flags_low : 0 ||| (PG_US_S ||| PG_RW_W ||| PG_P) = 3 := by decide

/-- The directory that `setup_page` leaves. -/
theorem setupPage_dir (m : Phys) {i : Nat} (inside : i < 1024) :
    setupPage m (PAGE_DIR_ADDR + 4 * i) = if Used i then tableFrame i + 3 else 0 := by
  rw [setupPage, flags_dir, flags_table, flags_low]
  unfold createPteLoop createPdeLoop clearPageDirLoop
  rw [storeLoop_outside _ _ _ _ (by intro k _; unfold PAGE_DIR_ADDR PAGE_TABLE_ADDR; omega)]
  have place : PAGE_DIR_ADDR + 4 * i = PAGE_DIR_ADDR + (0 + i) * 4 := by omega
  by_cases last : i = 1023
  · subst last
    rw [show PAGE_DIR_ADDR + 4 * 1023 = PAGE_DIR_ADDR + 1023 * 4 from rfl, Function.update_self]
    rfl
  · rw [Function.update_of_ne (by omega)]
    by_cases reserved : 769 ≤ i
    · obtain ⟨k, rfl⟩ := Nat.exists_eq_add_of_le reserved
      rw [show PAGE_DIR_ADDR + 4 * (769 + k) = PAGE_DIR_ADDR + (769 + k) * 4 by omega,
        storeLoop_inside _ _ _ _ _ (by omega) (by decide), if_pos (.inr (by omega)), tableFrame, if_neg last]
      unfold PAGE_TABLE_ADDR
      omega
    · rw [storeLoop_outside _ _ _ _ (by intro k _; omega)]
      by_cases kernel : i = 768
      · subst kernel
        rw [show PAGE_DIR_ADDR + 4 * 768 = PAGE_DIR_ADDR + 768 * 4 from rfl, Function.update_self]
        rfl
      · rw [Function.update_of_ne (by omega)]
        by_cases low : i = 0
        · subst low
          rw [show PAGE_DIR_ADDR + 4 * 0 = PAGE_DIR_ADDR + 0 * 4 from rfl, Function.update_self]
          rfl
        · rw [Function.update_of_ne (by omega), place, storeLoop_inside _ _ _ _ _ inside (by decide),
            if_neg (by unfold Used; omega), Nat.mul_zero]
          rfl

/-- The entries it writes in the first table. -/
theorem setupPage_table (m : Phys) {k : Nat} (low : k < 256) :
    setupPage m (PAGE_TABLE_ADDR + 4 * k) = k * 0x1000 + 3 := by
  rw [setupPage, flags_low]
  unfold createPteLoop
  rw [show PAGE_TABLE_ADDR + 4 * k = PAGE_TABLE_ADDR + (0 + k) * 4 by omega,
    storeLoop_inside _ _ _ _ _ low (by decide)]
  omega

/-- Nothing else changes: the rest of the tables is what memory held. -/
theorem setupPage_outside (m : Phys) {a : Nat} (above : PAGE_TABLE_ADDR + 4 * 256 ≤ a) : setupPage m a = m a := by
  unfold PAGE_TABLE_ADDR at above
  rw [setupPage]
  unfold createPteLoop createPdeLoop clearPageDirLoop
  rw [storeLoop_outside _ _ _ _ (by intro k _; unfold PAGE_TABLE_ADDR; omega),
    Function.update_of_ne (by unfold PAGE_DIR_ADDR; omega),
    storeLoop_outside _ _ _ _ (by intro k _; unfold PAGE_DIR_ADDR; omega),
    Function.update_of_ne (by unfold PAGE_DIR_ADDR; omega), Function.update_of_ne (by unfold PAGE_DIR_ADDR; omega),
    storeLoop_outside _ _ _ _ (by intro k _; unfold PAGE_DIR_ADDR; omega)]

/-! The address space that the walk sees. -/

/-- `virtual address map` of the architecture notes: the low megabyte twice, the tables through the
window, and nothing else. -/
structure InitialAddressSpace (m : Phys) : Prop where
  low : ∀ v < 0x100000, walk m PAGE_DIR_ADDR v = some v
  kernel : ∀ v < 0x100000, walk m PAGE_DIR_ADDR (0xC0000000 + v) = some v
  window : ∀ i < 1024, Used i → ∀ o < 0x1000,
    walk m PAGE_DIR_ADDR (0xFFC00000 + 0x1000 * i + o) = some (tableFrame i + o)
  unmapped : ∀ v < 0xFFC00000, ¬v < 0x100000 → ¬(0xC0000000 ≤ v ∧ v < 0xC0100000) → walk m PAGE_DIR_ADDR v = none

variable {m : Phys} {v : Nat}

theorem tableFrame_page (i : Nat) : ∃ n, tableFrame i = n * 2 ^ 12 := by
  unfold tableFrame PAGE_DIR_ADDR PAGE_TABLE_ADDR
  split
  · exact ⟨0x100, rfl⟩
  · exact ⟨0x101 + (i - 768), by omega⟩

theorem tableFrame_lt {i : Nat} (inside : i < 1024) : tableFrame i < 2 ^ 31 := by
  unfold tableFrame PAGE_DIR_ADDR PAGE_TABLE_ADDR
  split <;> omega

theorem frame_entry {i : Nat} (inside : i < 1024) : frame (tableFrame i + 3) = tableFrame i := by
  obtain ⟨n, page⟩ := tableFrame_page i
  have bound := tableFrame_lt inside
  unfold frame
  omega

theorem present_entry (i : Nat) : Present (tableFrame i + 3) := by
  obtain ⟨n, page⟩ := tableFrame_page i
  unfold Present
  omega

theorem setupPage_pteAt (used : Used (dirIndex v)) :
    pteAt (setupPage m) PAGE_DIR_ADDR v = some (tableFrame (dirIndex v) + 4 * tableIndex v) := by
  have entry := setupPage_dir m (dirIndex_lt v)
  rw [if_pos used] at entry
  unfold pteAt pdeAt
  rw [entry, if_pos (present_entry _), frame_entry (dirIndex_lt v)]

/-- The first table, at either of its places: the first 256 entries map the low megabyte. -/
theorem setupPage_walk_low (first : dirIndex v = 0 ∨ dirIndex v = 768) (low : tableIndex v < 256) :
    walk (setupPage m) PAGE_DIR_ADDR v = some (tableIndex v * 0x1000 + offset v) := by
  have table : tableFrame (dirIndex v) = PAGE_TABLE_ADDR := by
    rcases first with zero | kernel
    · rw [zero]
      rfl
    · rw [kernel]
      rfl
  have used : Used (dirIndex v) := by
    unfold Used
    omega
  have entry := setupPage_table m low
  have page : frame (tableIndex v * 0x1000 + 3) = tableIndex v * 0x1000 := by
    unfold frame
    omega
  rw [walk_of_pteAt (setupPage_pteAt used), table, entry, if_pos (by unfold Present; omega), page]

/-- A word of a table above the first 256 entries, which `setup_page` does not write. -/
def leftOver (v : Nat) : Nat := tableFrame (dirIndex v) + 4 * tableIndex v

/-- Elsewhere below the window the walk ends in what memory held before. -/
theorem setupPage_walk_leftOver (used : Used (dirIndex v))
    (above : PAGE_TABLE_ADDR + 4 * 256 ≤ leftOver v) :
    walk (setupPage m) PAGE_DIR_ADDR v =
      if Present (m (leftOver v)) then some (frame (m (leftOver v)) + offset v) else none := by
  have kept := setupPage_outside m above
  unfold leftOver at *
  rw [walk_of_pteAt (setupPage_pteAt used), kept]

theorem setupPage_walk_window {i o : Nat} (inside : i < 1024) (used : Used i) (page : o < 0x1000) :
    walk (setupPage m) PAGE_DIR_ADDR (0xFFC00000 + 0x1000 * i + o) = some (tableFrame i + o) := by
  have last : dirIndex (0xFFC00000 + 0x1000 * i + o) = 1023 := by
    unfold dirIndex
    omega
  have index : tableIndex (0xFFC00000 + 0x1000 * i + o) = i := by
    unfold tableIndex
    omega
  have rest : offset (0xFFC00000 + 0x1000 * i + o) = o := by
    unfold offset
    omega
  have entry := setupPage_dir m inside
  rw [if_pos used] at entry
  have self : tableFrame 1023 = PAGE_DIR_ADDR := rfl
  generalize 0xFFC00000 + 0x1000 * i + o = v at *
  have at_ := setupPage_pteAt (m := m) (v := v) (by rw [last]; exact .inr (by decide))
  rw [last, self, index] at at_
  rw [walk_of_pteAt at_, entry, if_pos (present_entry i), frame_entry inside, rest]

/-- The table words from entry 256 of the first table to the end of the last one are not present. -/
def TablesClear (m : Phys) : Prop := ∀ k, 256 ≤ k → k < 255 * 1024 → ¬Present (m (PAGE_TABLE_ADDR + 4 * k))

theorem unmapped_of_clear (clear : TablesClear m) (below : v < 0xFFC00000) (notLow : ¬v < 0x100000)
    (notKernel : ¬(0xC0000000 ≤ v ∧ v < 0xC0100000)) : walk (setupPage m) PAGE_DIR_ADDR v = none := by
  have small : dirIndex v < 1023 := by
    unfold dirIndex
    omega
  by_cases used : Used (dirIndex v)
  · have lane := tableIndex_lt v
    have place : leftOver v = PAGE_TABLE_ADDR + 4 * ((dirIndex v - 768) * 1024 + tableIndex v) := by
      rw [leftOver, tableFrame, if_neg (by omega)]
      omega
    have above : 256 ≤ (dirIndex v - 768) * 1024 + tableIndex v := by
      unfold Used dirIndex at *
      unfold tableIndex
      omega
    have absent := clear _ above (by omega)
    rw [← place] at absent
    rw [setupPage_walk_leftOver used (by rw [place]; omega), if_neg absent]
  · apply walk_of_absent
    have entry := setupPage_dir m (dirIndex_lt v)
    rw [if_neg used] at entry
    rw [pdeAt, entry]
    decide

/-- The address whose walk ends in word `k` of the tables. -/
def addressOf (k : Nat) : Nat := if k < 1024 then k * 0x1000 else 0xC0000000 + k * 0x1000

theorem walk_addressOf {k : Nat} (above : 256 ≤ k) (below : k < 255 * 1024) :
    walk (setupPage m) PAGE_DIR_ADDR (addressOf k) =
      if Present (m (PAGE_TABLE_ADDR + 4 * k)) then some (frame (m (PAGE_TABLE_ADDR + 4 * k))) else none := by
  have aligned : offset (addressOf k) = 0 := by
    unfold offset addressOf
    split <;> omega
  have used : Used (dirIndex (addressOf k)) := by
    unfold Used dirIndex addressOf
    split <;> omega
  have small : dirIndex (addressOf k) < 1023 := by
    unfold dirIndex addressOf
    split <;> omega
  have place : leftOver (addressOf k) = PAGE_TABLE_ADDR + 4 * k := by
    rw [leftOver, tableFrame, if_neg (by omega)]
    unfold dirIndex tableIndex addressOf
    split <;> omega
  rw [setupPage_walk_leftOver used (by rw [place]; omega), place, aligned, Nat.add_zero]

/-- The boot address space is the documented one exactly when memory happened to hold no present entry where
the page tables come to lie: `setup_page` clears the directory, but no page table. -/
theorem setupPage_initial_iff (m : Phys) : InitialAddressSpace (setupPage m) ↔ TablesClear m := by
  constructor
  · intro space k above below present
    have mapped := walk_addressOf (m := m) above below
    rw [if_pos present] at mapped
    have absent := space.unmapped (addressOf k)
    unfold addressOf at *
    rw [absent (by split <;> omega) (by split <;> omega) (by split <;> omega)] at mapped
    exact absurd mapped.symm (Option.some_ne_none _)
  · intro clear
    constructor
    · intro v low
      have index : dirIndex v = 0 := by
        unfold dirIndex
        omega
      rw [setupPage_walk_low (.inl index) (by unfold tableIndex; omega)]
      unfold tableIndex offset
      congr 1
      omega
    · intro v low
      have index : dirIndex (0xC0000000 + v) = 768 := by
        unfold dirIndex
        omega
      rw [setupPage_walk_low (.inr index) (by unfold tableIndex; omega)]
      unfold tableIndex offset
      congr 1
      omega
    · intro i inside used o page
      exact setupPage_walk_window inside used page
    · intro v below notLow notKernel
      exact unmapped_of_clear clear below notLow notKernel

/-- Over memory full of ones, the first page of the kernel heap is mapped from the start. -/
theorem setupPage_heap_mapped :
    walk (setupPage fun _ => 0xFFFFFFFF) PAGE_DIR_ADDR 0xC0100000 = some 0xFFFFF000 ∧
      ¬∀ m, InitialAddressSpace (setupPage m) := by
  have mapped : walk (setupPage fun _ => 0xFFFFFFFF) PAGE_DIR_ADDR 0xC0100000 = some 0xFFFFF000 := by
    rw [setupPage_walk_leftOver (by decide) (by decide)]
    decide
  refine ⟨mapped, fun all => ?_⟩
  have absent := (all fun _ => 0xFFFFFFFF).unmapped 0xC0100000 (by decide) (by decide) (by decide)
  exact absurd (absent.symm.trans mapped).symm (Option.some_ne_none _)

end KOS.SetupPage
