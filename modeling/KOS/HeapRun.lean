import KOS.HeapCalls
import KOS.Machine

/-! Runs of the heap: clients that call `sys_malloc` and `sys_free` and write to what they hold,
and other callers of the page layer. -/

namespace KOS.HeapRun
open KOS.ByteMemory KOS.LinkMemory KOS.DoublyLinked KOS.KernelList KOS.Paging KOS.PageWiring KOS.PageCalls KOS.Heap
  KOS.HeapLayout KOS.Machine NodeStore

def MEM_SIZE_ADDR : Nat := 0x900

/-- `mem_init`. The locks of the pools and of the page table are left aside. -/
def memInit (k : Pages) (m : Memory) (mblock : Nat) : HeapState :=
  { pages := poolInit k (load32 m MEM_SIZE_ADDR), mem := memBlockInit m mblock, arenas := [], large := [] }

/-- The heap, the pointers that the clients hold with the sizes they asked for, and the pages of
other owners. -/
structure Sys where
  heap : HeapState
  live : List (Nat × Nat)
  others : List Nat

def setHeap (s : Sys) (h : HeapState) : Sys := { s with heap := h }

def hold (s : Sys) (p size : Nat) : Sys := { s with live := (p, size) :: s.live }

def letGo (s : Sys) (p : Nat) : Sys := { s with live := s.live.filter (·.1 ≠ p) }

def setOthers (s : Sys) (others : List Nat) : Sys := { s with others := others }

inductive Event where
  | malloc (size : Nat) (fresh : Memory)
  | free (p : Nat)
  | write (p offset : Nat) (v : UInt8)
  | pageMalloc (vaddr pgCnt : Nat) (fresh : Memory)
  | pageFree (vaddr pgCnt : Nat)

def step (mblock : Nat) (s : Sys) : Event → Option Sys
  | .malloc size fresh =>
      let (p, h) := sysMalloc s.heap mblock size fresh
      some (if p = 0 then setHeap s h else hold (setHeap s h) p size)
  | .free p => (sysFree s.heap p).map fun h => letGo (setHeap s h) p
  | .write p offset v => some (setHeap s (setMem s.heap (store s.heap.mem (p + offset) v)))
  | .pageMalloc vaddr pgCnt fresh =>
      let (a, pages) := pageAcquire s.heap.pages vaddr pgCnt
      let s' := setHeap s (setPages s.heap pages (remap s.heap.pages pages s.heap.mem fresh))
      some (if a = 0 then s' else setOthers s' (span a pgCnt ++ s.others))
  | .pageFree vaddr pgCnt =>
      (pageRelease s.heap.pages vaddr pgCnt).map fun pages =>
        setOthers (setHeap s (setPages s.heap pages s.heap.mem)) (s.others.filter (· ∉ span vaddr pgCnt))

def held (s : Sys) : List Nat := s.live.map Prod.fst

/-- Sizes stay under the limit, pages picked lie in the heap, and clients use what they own. -/
def Permitted (mblock limit : Nat) (s : Sys) : Event → Prop
  | .malloc size _ => size ≤ limit ∧ ∀ n ∈ requested s.heap mblock size, Request s.heap.pages.vp 0 n
  | .free p => p ∈ held s
  | .write p offset _ => ∃ b ∈ s.live, b.1 = p ∧ offset < b.2
  | .pageMalloc vaddr pgCnt _ => Request s.heap.pages.vp vaddr pgCnt
  | .pageFree vaddr pgCnt => vaddr % PG_SIZE = 0 ∧ vaddr < 2 ^ 32 ∧ ∀ page ∈ span vaddr pgCnt, page ∈ s.others

instance (mblock limit : Nat) (s : Sys) : DecidablePred (Permitted mblock limit s)
  | .malloc size _ =>
      inferInstanceAs (Decidable (size ≤ limit ∧ ∀ n ∈ requested s.heap mblock size, Request s.heap.pages.vp 0 n))
  | .free p => inferInstanceAs (Decidable (p ∈ held s))
  | .write p offset _ => inferInstanceAs (Decidable (∃ b ∈ s.live, b.1 = p ∧ offset < b.2))
  | .pageMalloc vaddr pgCnt _ => inferInstanceAs (Decidable (Request s.heap.pages.vp vaddr pgCnt))
  | .pageFree vaddr pgCnt =>
      inferInstanceAs (Decidable (vaddr % PG_SIZE = 0 ∧ vaddr < 2 ^ 32 ∧ ∀ page ∈ span vaddr pgCnt, page ∈ s.others))

/-! `mem_init`. -/

theorem listInit_changes (m : Memory) (plist : KList Nat) (head : plist.head + 8 ≤ 2 ^ 32)
    (tail : plist.tail + 8 ≤ 2 ^ 32) : ChangesOnly (cells [plist.head, plist.tail]) m (listInit 0 m plist) := by
  have word : ∀ {m' : Memory} {x a v : Nat}, x ∈ [plist.head, plist.tail] → x ≤ a → a + 4 ≤ x + 8 → a + 4 ≤ 2 ^ 32 →
      ChangesOnly (cells [plist.head, plist.tail]) m' (store32 m' a v) := by
    intro m' x a v member low high fits
    apply (store32_changes m' v fits).mono
    rintro y ⟨first, last⟩
    exact ⟨x, member, by omega, by omega⟩
  have first : plist.head ∈ [plist.head, plist.tail] := by simp
  have last : plist.tail ∈ [plist.head, plist.tail] := by simp
  apply (word first le_rfl (by omega) (by omega)).trans
  apply (word first (Nat.le_add_right _ 4) (by omega) (by omega)).trans
  apply (word last le_rfl (by omega) (by omega)).trans
  exact word last (Nat.le_add_right _ 4) (by omega) (by omega)

/-- One round of the loop of `mem_block_init`. -/
def descInit (m : Memory) (desc blockSize : Nat) : Memory :=
  mutexInit (listInit 0 (store32 (store32 m desc blockSize) (desc + 4) ((PG_SIZE - ARENA_SIZE) / blockSize))
    (freeList desc)) (desc + 24)

theorem descInit_spec (m : Memory) {desc size : Nat} (fits : desc + 48 ≤ 2 ^ 32) (small : size < 2 ^ 32) :
    blockSize (descInit m desc size) desc = size ∧
      blocksPerArena (descInit m desc size) desc = (PG_SIZE - ARENA_SIZE) / size ∧
      Holds (descInit m desc size) (freeList desc) [] ∧
      ChangesOnly (Set.Ico desc (desc + 48)) m (descInit m desc size) := by
  have little : (PG_SIZE - ARENA_SIZE) / size < 2 ^ 32 := (Nat.div_le_self _ _).trans_lt (by decide)
  have two : ∀ {x y : Nat}, cells [x, y] ⊆ Set.Ico x (x + 8) ∪ Set.Ico y (y + 8) := by
    rintro x y a ⟨z, member, inside⟩
    rcases List.mem_cons.mp member with rfl | member
    · exact .inl inside
    · rw [List.mem_singleton.mp member] at inside
      exact .inr inside
  unfold descInit
  have c1 := store32_changes m (a := desc) size (by omega)
  have r1 := load32_store32 m desc small
  generalize store32 m desc size = m1 at *
  have c2 := store32_changes m1 (a := desc + 4) ((PG_SIZE - ARENA_SIZE) / size) (by omega)
  have r2 := load32_store32 m1 (desc + 4) little
  generalize store32 m1 (desc + 4) ((PG_SIZE - ARENA_SIZE) / size) = m2 at *
  have apart : Apart Memory (freeList desc).head (freeList desc).tail :=
    apart_of_gap (show desc + 8 + 8 ≤ 2 ^ 32 by omega) (show desc + 16 + 8 ≤ 2 ^ 32 by omega) (.inl le_rfl)
  have holds := listInit_holds (σ := Memory) 0 m2 apart (show desc + 8 < 2 ^ 32 by omega) (show desc + 16 < 2 ^ 32 by omega)
  have c3 := (listInit_changes m2 (freeList desc) (show desc + 8 + 8 ≤ 2 ^ 32 by omega)
    (show desc + 16 + 8 ≤ 2 ^ 32 by omega)).mono two
  generalize listInit 0 m2 (freeList desc) = m3 at *
  have c4 : ChangesOnly (Set.Ico (desc + 24) (desc + 48)) m3 (mutexInit m3 (desc + 24)) := by
    have c5 := store32_changes m3 (a := desc + 24) 0 (by omega)
    have c6 := store32_changes (store32 m3 (desc + 24) 0) (a := desc + 24 + 4) 0 (by omega)
    have c7 := (listInit_changes (store32 (store32 m3 (desc + 24) 0) (desc + 24 + 4) 0)
      ⟨desc + 24 + 8, desc + 24 + 16⟩ (show desc + 24 + 8 + 8 ≤ 2 ^ 32 by omega)
      (show desc + 24 + 16 + 8 ≤ 2 ^ 32 by omega)).mono two
    apply (c5.mono (Set.Ico_subset_Ico (by omega) (by omega))).trans
    apply (c6.mono (Set.Ico_subset_Ico (by omega) (by omega))).trans
    apply c7.mono
    exact Set.union_subset (Set.Ico_subset_Ico (show desc + 24 ≤ desc + 24 + 8 by omega) (show desc + 24 + 8 + 8 ≤ desc + 48 by omega))
      (Set.Ico_subset_Ico (show desc + 24 ≤ desc + 24 + 16 by omega) (show desc + 24 + 16 + 8 ≤ desc + 48 by omega))
  generalize mutexInit m3 (desc + 24) = m4 at *
  have late : ChangesOnly (Set.Ico (desc + 8) (desc + 48)) m2 m4 := by
    apply (c3.mono (Set.union_subset (Set.Ico_subset_Ico (show desc + 8 ≤ desc + 8 from le_rfl) (show desc + 8 + 8 ≤ desc + 48 by omega))
      (Set.Ico_subset_Ico (show desc + 8 ≤ desc + 16 by omega) (show desc + 16 + 8 ≤ desc + 48 by omega)))).trans
    exact c4.mono (Set.Ico_subset_Ico (show desc + 8 ≤ desc + 24 by omega) le_rfl)
  refine ⟨?_, ?_, ?_, ?_⟩
  · calc load32 m4 desc = load32 m2 desc := late.load32 (by omega) (by rintro x ⟨low, high⟩ ⟨low', high'⟩; omega)
      _ = load32 m1 desc := c2.load32 (by omega) (by rintro x ⟨low, high⟩ ⟨low', high'⟩; omega)
      _ = size := r1
  · calc load32 m4 (desc + 4) = load32 m2 (desc + 4) :=
        late.load32 (by omega) (by rintro x ⟨low, high⟩ ⟨low', high'⟩; omega)
      _ = (PG_SIZE - ARENA_SIZE) / size := r2
  · have node : ∀ x ∈ (freeList desc).head :: [] ++ [(freeList desc).tail], x = desc + 8 ∨ x = desc + 16 := by
      intro x member
      simpa [freeList] using member
    apply holds_kept holds c4
    · intro x member
      rcases node x member with rfl | rfl <;> omega
    · rintro x member a ⟨low, high⟩ ⟨low', high'⟩
      rcases node x member with rfl | rfl <;> omega
  · apply (c1.mono (Set.Ico_subset_Ico le_rfl (by omega))).trans
    apply (c2.mono (Set.Ico_subset_Ico (by omega) (by omega))).trans
    exact late.mono (Set.Ico_subset_Ico (by omega) le_rfl)

/-- The descriptors from `idx` on are set up, and nothing else changes. -/
theorem memBlockInitLoop_spec {mblock left idx : Nat} (m : Memory) (fits : mblock + 48 * (idx + left) ≤ 2 ^ 32)
    (count : idx + left ≤ MEM_BLOCK_CNT) :
    (∀ i, idx ≤ i → i < idx + left → blockSize (memBlockInitLoop mblock left idx (classSize idx) m) (descAt mblock i) = classSize i ∧
      blocksPerArena (memBlockInitLoop mblock left idx (classSize idx) m) (descAt mblock i) = classBlocks i ∧
      Holds (memBlockInitLoop mblock left idx (classSize idx) m) (freeList (descAt mblock i)) []) ∧
      ChangesOnly (Set.Ico (descAt mblock idx) (descAt mblock (idx + left))) m
        (memBlockInitLoop mblock left idx (classSize idx) m) := by
  induction left generalizing idx m with
  | zero =>
    refine ⟨?_, ChangesOnly.refl _ m⟩
    intro i low high
    omega
  | succ left ih =>
    have here : descAt mblock idx + 48 ≤ 2 ^ 32 := by
      unfold descAt
      omega
    have small : idx < 7 := by
      unfold MEM_BLOCK_CNT at count
      omega
    have size : classSize idx < 2 ^ 32 := (classSize_small small).trans_lt (by decide)
    have twice : classSize idx * 2 = classSize (idx + 1) := by
      unfold classSize
      rw [Nat.pow_succ, Nat.mul_assoc]
    have round : memBlockInitLoop mblock (left + 1) idx (classSize idx) m =
        memBlockInitLoop mblock left (idx + 1) (classSize (idx + 1)) (descInit m (descAt mblock idx) (classSize idx)) := by
      rw [← twice]
      rfl
    obtain ⟨words, words', empty, changes⟩ := descInit_spec m here size
    obtain ⟨later, changes'⟩ := ih (descInit m (descAt mblock idx) (classSize idx))
      (show mblock + 48 * (idx + 1 + left) ≤ 2 ^ 32 by omega) (by omega)
    rw [round]
    generalize descInit m (descAt mblock idx) (classSize idx) = m1 at *
    have next : descAt mblock (idx + 1) = descAt mblock idx + 48 := by
      unfold descAt
      omega
    have last : descAt mblock (idx + 1 + left) = descAt mblock idx + 48 + 48 * left := by
      unfold descAt
      omega
    rw [next, last] at changes'
    constructor
    · intro i low high
      by_cases first : i = idx
      · subst first
        have away : ∀ x, x < descAt mblock i + 48 → x ∉ Set.Ico (descAt mblock i + 48) (descAt mblock i + 48 + 48 * left) := by
          rintro x below ⟨low', high'⟩
          omega
        refine ⟨?_, ?_, ?_⟩
        · rw [← words]
          exact changes'.load32 (by omega) (fun x inside => away x (by have := inside.2; omega))
        · rw [show classBlocks i = (PG_SIZE - ARENA_SIZE) / classSize i from rfl, ← words']
          exact changes'.load32 (by omega) (fun x inside => away x (by have := inside.2; omega))
        · have node : ∀ x ∈ (freeList (descAt mblock i)).head :: [] ++ [(freeList (descAt mblock i)).tail],
              x = descAt mblock i + 8 ∨ x = descAt mblock i + 16 := by
            intro x member
            simpa [freeList] using member
          apply holds_kept empty changes'
          · intro x member
            rcases node x member with rfl | rfl <;> omega
          · intro x member a inside
            have high' := inside.2
            rcases node x member with rfl | rfl <;> exact away a (by omega)
      · exact later i (by omega) (by omega)
    · have whole : descAt mblock (idx + (left + 1)) = descAt mblock idx + 48 + 48 * left := by
        unfold descAt
        omega
      rw [whole]
      apply (changes.mono (Set.Ico_subset_Ico le_rfl (by omega))).trans
      exact changes'.mono (Set.Ico_subset_Ico (by omega) le_rfl)

/-! The invariant. -/

variable {mblock limit : Nat} {s s' s₀ : Sys}

/-- The bookkeeping is right, every pointer has room for what was asked for, and no arena is
kept without a live block. -/
structure Inv (mblock : Nat) (s : Sys) : Prop where
  core : ∃ free, Core mblock s.heap (held s) s.others free
  placed : ∀ b ∈ s.live, Placed s.heap b.1 b.2
  nodup : (held s).Nodup
  used : ∀ page i, (page, i) ∈ s.heap.arenas → ∃ idx < classBlocks i, blockAt page i idx ∈ held s

/-- After `mem_init`: the descriptors lie below the heap, and the page tables of the heap are
installed. -/
def Start (mblock : Nat) (s : Sys) : Prop :=
  mblock + 48 * MEM_BLOCK_CNT ≤ K_HEAP_START ∧ ∃ k m, (∀ page, InHeap page → present (k.pde (page / 1024)) = true) ∧
    s = ⟨memInit k m mblock, [], []⟩

theorem Start.inv (start : Start mblock s) : Inv mblock s := by
  obtain ⟨placed, k, m, tables, rfl⟩ := start
  have sized := poolInit_sized k (load32 m MEM_SIZE_ADDR) tables
  obtain ⟨descs, -⟩ := memBlockInitLoop_spec m
    (show mblock + 48 * (0 + MEM_BLOCK_CNT) ≤ 2 ^ 32 by unfold MEM_BLOCK_CNT K_HEAP_START at *; omega)
    (show 0 + MEM_BLOCK_CNT ≤ MEM_BLOCK_CNT from le_rfl)
  have none : ∀ {P : Nat → Nat → Prop} page i, (page, i) ∈ (memInit k m mblock).arenas → P page i :=
    fun _ _ member => absurd member List.not_mem_nil
  refine ⟨⟨fun _ => [], ⟨placed, ⟨sized, ?_, ?_, ?_, ?_, ?_⟩, List.nodup_nil, none, ?_, ?_, ?_, ?_, none, ?_⟩⟩, ?_,
    List.nodup_nil, none⟩
  · exact fun page claim => absurd claim List.not_mem_nil
  · exact fun page claim => absurd claim List.not_mem_nil
  · exact fun page claim => absurd claim List.not_mem_nil
  · exact fun paddr tied => absurd tied (Set.notMem_empty paddr)
  · exact fun page claim => absurd claim List.not_mem_nil
  · exact fun page n member => absurd member List.not_mem_nil
  · intro i small
    obtain ⟨size, count, -⟩ := descs i (Nat.zero_le i) (by omega)
    exact ⟨size, count⟩
  · intro i small
    exact (descs i (Nat.zero_le i) (by omega)).2.2
  · rintro i - x
    apply iff_of_false List.not_mem_nil
    rintro ⟨⟨page, idx, member, -⟩, -⟩
    exact absurd member List.not_mem_nil
  · exact fun page n member => absurd member List.not_mem_nil
  · exact fun b member => absurd member List.not_mem_nil

theorem Inv.owned (inv : Inv mblock s) : ∀ p ∈ held s, p / 4096 ∈ heapPages s.heap := by
  intro p member
  obtain ⟨free, core⟩ := inv.core
  obtain ⟨b, live, rfl⟩ := List.mem_map.mp member
  exact (inv.placed b live).page core.counts

theorem Inv.sysMalloc {size : Nat} (fresh : Memory) (inv : Inv mblock s) (limit : size ≤ MAX_SIZE)
    (request : ∀ n ∈ requested s.heap mblock size, Request s.heap.pages.vp 0 n) :
    Malloced mblock s.heap (held s) s.others size (sysMalloc s.heap mblock size fresh) := by
  obtain ⟨free, core⟩ := inv.core
  exact core.sysMalloc fresh limit request inv.owned

theorem Inv.malloc {size : Nat} {fresh : Memory} (inv : Inv mblock s) (limit : size ≤ MAX_SIZE)
    (request : ∀ n ∈ requested s.heap mblock size, Request s.heap.pages.vp 0 n)
    (moved : step mblock s (.malloc size fresh) = some s') : Inv mblock s' := by
  have outcome := inv.sysMalloc fresh limit request
  simp only [step] at moved
  generalize Heap.sysMalloc s.heap mblock size fresh = result at outcome moved
  cases outcome with
  | failed h null core arenas large kept =>
    rw [if_pos rfl] at moved
    cases moved
    refine ⟨core, fun b member => (inv.placed b member).mono (arenas ▸ List.Subset.refl _) (large ▸ List.Subset.refl _),
      inv.nodup, ?_⟩
    intro page i member
    rw [show (setHeap s h).heap.arenas = s.heap.arenas from arenas] at member
    exact inv.used page i member
  | granted p h some core placed new arenas large used zero kept whole part =>
    rw [if_neg some] at moved
    cases moved
    refine ⟨core, ?_, List.nodup_cons.mpr ⟨new, inv.nodup⟩, ?_⟩
    · intro b member
      rcases List.mem_cons.mp member with rfl | old
      · exact placed
      · exact (inv.placed b old).mono arenas large
    · intro page i member
      rcases used page i member with old | ⟨idx, inside, rfl⟩
      · obtain ⟨idx, inside, live⟩ := inv.used page i old
        exact ⟨idx, inside, List.mem_cons_of_mem _ live⟩
      · exact ⟨idx, inside, List.mem_cons_self⟩

theorem mem_letGo {p x : Nat} : x ∈ held (letGo s p) ↔ x ≠ p ∧ x ∈ held s := by
  simp only [held, letGo, List.mem_map, List.mem_filter, decide_eq_true_eq]
  constructor
  · rintro ⟨b, ⟨live, other⟩, rfl⟩
    exact ⟨other, b, live, rfl⟩
  · rintro ⟨other, b, live, rfl⟩
    exact ⟨b, ⟨live, other⟩, rfl⟩

theorem Inv.sysFree {p : Nat} (inv : Inv mblock s) (live : p ∈ held s) :
    ∃ h, sysFree s.heap p = some h ∧ Freed mblock s.heap (held (letGo s p)) s.others p h := by
  obtain ⟨free, core⟩ := inv.core
  obtain ⟨b, member, rfl⟩ := List.mem_map.mp live
  exact core.sysFree (inv.placed b member) live fun x => mem_letGo

theorem Inv.free {p : Nat} (inv : Inv mblock s) (live : p ∈ held s) (moved : step mblock s (.free p) = some s') :
    Inv mblock s' := by
  obtain ⟨h, released, freed⟩ := inv.sysFree live
  simp only [step, released, Option.map_some, Option.some.injEq] at moved
  subst moved
  refine ⟨freed.core, ?_, inv.nodup.sublist (List.filter_sublist.map _), ?_⟩
  · intro b member
    have old : b ∈ s.live := (List.mem_filter.mp member).1
    have left : b.1 ∈ held (letGo s p) := List.mem_map_of_mem member
    rcases inv.placed b old with ⟨i, ⟨page, idx, arena, inside, at_⟩, room⟩ | ⟨page, n, large, at_, room⟩
    · exact .inl ⟨i, ⟨page, idx, freed.stays page i idx arena inside (at_ ▸ left), inside, at_⟩, room⟩
    · exact .inr ⟨page, n, freed.staysLarge page n large (at_ ▸ left), at_, room⟩
  · intro page i member
    obtain ⟨idx, inside, old⟩ := inv.used page i (freed.arenas member)
    by_cases same : blockAt page i idx = p
    · have bounds := blockAt_bounds page inside
      have positive := classSize_ge i
      have index : p / 4096 = page := by omega
      have other := freed.used i
      rw [index] at other
      exact other member
    · exact ⟨idx, inside, mem_letGo.mpr ⟨same, old⟩⟩

/-- Any write that leaves the heap's own bytes alone. -/
theorem Inv.rewrite {S : Set Nat} {m : Memory} (inv : Inv mblock s) (changes : ChangesOnly S s.heap.mem m)
    (away : ∀ a ∈ HeapBytes mblock s.heap (held s), a ∉ S) : Inv mblock (setHeap s (setMem s.heap m)) := by
  obtain ⟨free, core⟩ := inv.core
  exact ⟨⟨free, core.remem changes away⟩, inv.placed, inv.nodup, inv.used⟩

theorem Inv.write {p offset : Nat} {v : UInt8} (inv : Inv mblock s) (own : ∃ b ∈ s.live, b.1 = p ∧ offset < b.2) :
    Inv mblock (setHeap s (setMem s.heap (store s.heap.mem (p + offset) v))) := by
  obtain ⟨free, core⟩ := inv.core
  obtain ⟨b, member, rfl, room⟩ := own
  have inside : b.1 + offset ∈ Extent s.heap b.1 := (inv.placed b member).extent (Nat.le_add_right _ _) (by omega)
  have below := (core.extent_heap inside).2
  apply inv.rewrite (store_changes s.heap.mem v (show b.1 + offset < 2 ^ 32 by omega))
  rintro a own rfl
  exact core.extent_own (List.mem_map_of_mem member) inside (core.heapBytes_bookkeeping own)

theorem Inv.pageMalloc {vaddr pgCnt : Nat} {fresh : Memory} (inv : Inv mblock s)
    (request : Request s.heap.pages.vp vaddr pgCnt) (moved : step mblock s (.pageMalloc vaddr pgCnt fresh) = some s') :
    Inv mblock s' := by
  obtain ⟨free, core⟩ := inv.core
  cases ran : pageAcquire s.heap.pages vaddr pgCnt with
  | mk a pages =>
    obtain ⟨changes, outcome⟩ := core.acquire fresh request ran
    simp only [step, ran] at moved
    rcases outcome with ⟨null, wires⟩ | ⟨some, page, rfl, free_, wires⟩
    · rw [if_pos null] at moved
      cases moved
      exact ⟨⟨free, core.repage wires changes⟩, inv.placed, inv.nodup, inv.used⟩
    · rw [if_neg some] at moved
      cases moved
      have pages_ : ∀ q, q ∈ span (page * 4096) pgCnt ↔ q ∈ pagesFrom page pgCnt := by
        intro q
        rw [mem_pagesFrom, show page * 4096 / PG_SIZE = page from Nat.mul_div_cancel _ (by decide)]
      have kept := core.repage (wires.weaken Set.subset_union_left Set.subset_union_left subset_rfl) changes
      have perm : (heapPages s.heap ++ (span (page * 4096) pgCnt ++ s.others)).Perm
          (span (page * 4096) pgCnt ++ (heapPages s.heap ++ s.others)) := List.perm_append_comm_assoc ..
      have more : claimed s.heap (span (page * 4096) pgCnt ++ s.others) ⊆ claimed s.heap s.others ∪ pagesFrom page pgCnt := by
        intro q member
        rcases List.mem_append.mp (perm.mem_iff.mp member) with new | old
        · exact .inr ((pages_ q).mp new)
        · exact .inl old
      refine ⟨⟨free, kept.reown ?_ (wires.weaken more more subset_rfl)⟩, inv.placed, inv.nodup, inv.used⟩
      apply perm.nodup_iff.mpr
      apply List.nodup_append'.mpr
      exact ⟨List.nodup_range', core.nodup, fun q new old => (free_ q ((pages_ q).mp new)).2 old⟩

theorem Inv.pageFree {vaddr pgCnt : Nat} (inv : Inv mblock s) (aligned : vaddr % PG_SIZE = 0)
    (own : ∀ page ∈ span vaddr pgCnt, page ∈ s.others) (moved : step mblock s (.pageFree vaddr pgCnt) = some s') :
    Inv mblock s' := by
  obtain ⟨free, core⟩ := inv.core
  have whole : ∀ q, q ∈ pagesFrom (vaddr / PG_SIZE) pgCnt ↔ q ∈ span vaddr pgCnt := fun q => mem_pagesFrom.symm
  have claims : pagesFrom (vaddr / PG_SIZE) pgCnt ⊆ claimed s.heap s.others :=
    fun q inside => List.mem_append_right _ (own q ((whole q).mp inside))
  obtain ⟨pages, released, wires, -, -⟩ := pageRelease_wired core.wiring claims claims
  rw [Nat.div_mul_cancel (Nat.dvd_of_mod_eq_zero aligned)] at released
  simp only [step, released, Option.map_some, Option.some.injEq] at moved
  subst moved
  have fewer : claimed s.heap (s.others.filter (· ∉ span vaddr pgCnt)) ⊆
      claimed s.heap s.others \ pagesFrom (vaddr / PG_SIZE) pgCnt := by
    intro q member
    rcases List.mem_append.mp member with mine | other
    · refine ⟨List.mem_append_left _ mine, fun gone => ?_⟩
      exact (List.nodup_append.mp core.nodup).2.2 q mine q (own q ((whole q).mp gone)) rfl
    · obtain ⟨old, away⟩ := List.mem_filter.mp other
      exact ⟨List.mem_append_right _ old, fun gone => of_decide_eq_true away ((whole q).mp gone)⟩
  have before := core.wiring.weaken (fewer.trans Set.sdiff_subset) (fewer.trans Set.sdiff_subset) subset_rfl
  have left := core.reown (core.nodup.sublist (List.filter_sublist.append_left _)) before
  have kept := left.repage (wires.weaken fewer fewer subset_rfl) (ChangesOnly.refl _ _)
  exact ⟨⟨free, kept⟩, inv.placed, inv.nodup, inv.used⟩

theorem Inv.step {e : Event} (inv : Inv mblock s) (small : limit ≤ MAX_SIZE) (permitted : Permitted mblock limit s e)
    (moved : step mblock s e = some s') : Inv mblock s' := by
  cases e with
  | malloc size fresh => exact inv.malloc (permitted.1.trans small) permitted.2 moved
  | free p => exact inv.free permitted moved
  | write p offset v =>
    cases moved
    exact inv.write permitted
  | pageMalloc vaddr pgCnt fresh => exact inv.pageMalloc permitted moved
  | pageFree vaddr pgCnt => exact inv.pageFree permitted.1 permitted.2.2 moved

theorem reach_inv (small : limit ≤ MAX_SIZE) (start : Start mblock s₀)
    (run : Reach (step mblock) (Permitted mblock limit) s₀ s) : Inv mblock s := by
  have kept : ∀ (before : Sys) e after, Inv mblock before → Permitted mblock limit before e →
      HeapRun.step mblock before e = some after → Inv mblock after :=
    fun before e after inv permitted moved => inv.step small permitted moved
  exact Reach.invariant kept start.inv run

/-! A machine with 3 MiB of memory. -/

def kMemBlock : Nat := 0xC0010000

def bareTables : Pages where
  vp := ⟨0, fun _ => 0, 0⟩
  pp := ⟨0, 0, fun _ => 0, 0⟩
  up := ⟨0, 0, fun _ => 0, 0⟩
  pde := fun _ => 7
  pte := fun _ => 0

def booted : Sys := ⟨memInit bareTables (fun a => if a = 0x902 then 0x30 else 0) kMemBlock, [], []⟩

theorem booted_start : Start kMemBlock booted :=
  ⟨by decide, bareTables, _, fun _ _ => entry_present (by decide : 0 % PG_SIZE = 0), rfl⟩

end KOS.HeapRun
