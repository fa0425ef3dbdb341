import KOS.Heap

/-! Where the heap keeps what: the blocks of an arena page, the pages of the heap, and the state
in which descriptors, headers and free lists agree with the blocks that are live. -/

namespace KOS.HeapLayout
open KOS.ByteMemory KOS.LinkMemory KOS.DoublyLinked KOS.KernelList KOS.Paging KOS.PageWiring KOS.PageCalls KOS.Heap NodeStore

/-- The size of the blocks of a class. -/
def classSize (i : Nat) : Nat := 16 * 2 ^ i

def classBlocks (i : Nat) : Nat := (PG_SIZE - ARENA_SIZE) / classSize i

def blockAt (page i idx : Nat) : Nat := page * PG_SIZE + ARENA_SIZE + idx * classSize i

/-- A block of one of the arenas. -/
def IsBlock (arenas : List (Nat × Nat)) (i x : Nat) : Prop :=
  ∃ page idx, (page, i) ∈ arenas ∧ idx < classBlocks i ∧ x = blockAt page i idx

theorem classSize_ge (i : Nat) : 16 ≤ classSize i := Nat.le_mul_of_pos_right 16 (Nat.two_pow_pos i)

theorem classBlocks_fits (i : Nat) : classBlocks i * classSize i ≤ 4084 := Nat.div_mul_le_self ..

theorem classSize_small {i : Nat} (small : i < 7) : classSize i ≤ 1024 := by
  unfold classSize
  interval_cases i <;> decide

theorem classBlocks_pos {i : Nat} (small : i < 7) : 0 < classBlocks i := by
  unfold classBlocks classSize
  interval_cases i <;> decide

theorem blockAt_bounds (page : Nat) {i idx : Nat} (inside : idx < classBlocks i) :
    page * 4096 + 12 ≤ blockAt page i idx ∧ blockAt page i idx + classSize i ≤ page * 4096 + 4096 := by
  have whole := classBlocks_fits i
  have upto : (idx + 1) * classSize i ≤ classBlocks i * classSize i := Nat.mul_le_mul_right _ inside
  rw [Nat.succ_mul] at upto
  unfold blockAt PG_SIZE ARENA_SIZE
  omega

theorem blockAt_gap (page i : Nat) {idx idx' : Nat} (before : idx < idx') :
    blockAt page i idx + classSize i ≤ blockAt page i idx' := by
  have upto : (idx + 1) * classSize i ≤ idx' * classSize i := Nat.mul_le_mul_right _ before
  rw [Nat.succ_mul] at upto
  unfold blockAt
  omega

theorem blockAt_injective {page i idx idx' : Nat} (same : blockAt page i idx = blockAt page i idx') : idx = idx' := by
  have positive := classSize_ge i
  rcases Nat.lt_trichotomy idx idx' with before | equal | after
  · have gap := blockAt_gap page i before
    omega
  · exact equal
  · have gap := blockAt_gap page i after
    omega

theorem block2arena_eq (b : Nat) (small : b < 2 ^ 32) : block2arena b = b / 4096 * 4096 := by
  unfold block2arena
  rw [mask_page]
  omega

theorem IsBlock.place {arenas : List (Nat × Nat)} {i x : Nat} (block : IsBlock arenas i x) :
    (x / 4096, i) ∈ arenas ∧ 12 ≤ x % 4096 ∧ x % 4096 + classSize i ≤ 4096 := by
  obtain ⟨page, idx, member, inside, rfl⟩ := block
  obtain ⟨low, high⟩ := blockAt_bounds page inside
  have positive := classSize_ge i
  have index : blockAt page i idx / 4096 = page := by omega
  rw [index]
  exact ⟨member, by omega, by omega⟩

/-- The pages that the heap has got from the page layer. -/
def heapPages (h : HeapState) : List Nat := h.arenas.map Prod.fst ++ h.large.flatMap fun r => List.range' r.1 r.2

def claimed (h : HeapState) (others : List Nat) : Set Nat := {page | page ∈ heapPages h ++ others}

/-- The number of free blocks of an arena. -/
def freeCount (page i : Nat) (live : List Nat) : Nat :=
  ((Finset.range (classBlocks i)).filter fun idx => blockAt page i idx ∉ live).card

/-- The nodes of a free list: two sentinels in the descriptor, and the free blocks. -/
def nodes (mblock : Nat) (free : Nat → List Nat) (i : Nat) : List Nat :=
  (freeList (descAt mblock i)).head :: free i ++ [(freeList (descAt mblock i)).tail]

/-- `live` are the pointers the clients hold, `others` the pages of other owners, `free` the
elements of the free lists. -/
structure Core (mblock : Nat) (h : HeapState) (live others : List Nat) (free : Nat → List Nat) : Prop where
  placed : mblock + 48 * MEM_BLOCK_CNT ≤ K_HEAP_START
  wiring : Wired h.pages (claimed h others) (claimed h others) ∅
  nodup : (heapPages h ++ others).Nodup
  classes : ∀ page i, (page, i) ∈ h.arenas → i < MEM_BLOCK_CNT
  counts : ∀ page n, (page, n) ∈ h.large → 0 < n
  descs : ∀ i < MEM_BLOCK_CNT, blockSize h.mem (descAt mblock i) = classSize i ∧
    blocksPerArena h.mem (descAt mblock i) = classBlocks i
  lists : ∀ i < MEM_BLOCK_CNT, Holds h.mem (freeList (descAt mblock i)) (free i)
  members : ∀ i < MEM_BLOCK_CNT, ∀ x, x ∈ free i ↔ IsBlock h.arenas i x ∧ x ∉ live
  headers : ∀ page i, (page, i) ∈ h.arenas → pMemBlock h.mem (page * PG_SIZE) = descAt mblock i ∧
    cnt h.mem (page * PG_SIZE) = freeCount page i live ∧ isPageCnt h.mem (page * PG_SIZE) = false
  larges : ∀ page n, (page, n) ∈ h.large → cnt h.mem (page * PG_SIZE) = n ∧ isPageCnt h.mem (page * PG_SIZE) = true

variable {mblock : Nat} {h : HeapState} {live others : List Nat} {free : Nat → List Nat} {m : Memory} {S : Set Nat}

theorem Core.arena_heap {page i : Nat} (core : Core mblock h live others free) (member : (page, i) ∈ h.arenas) :
    InHeap page := by
  apply core.wiring.heap
  exact List.mem_append_left _ (List.mem_append_left _ (List.mem_map_of_mem (f := Prod.fst) member))

theorem large_page {page n q : Nat} (member : (page, n) ∈ h.large) (inside : q ∈ pagesFrom page n) : q ∈ heapPages h := by
  apply List.mem_append_right
  exact List.mem_flatMap.mpr ⟨_, member, List.mem_range'_1.mpr inside⟩

theorem Core.large_heap {page n : Nat} (core : Core mblock h live others free) (member : (page, n) ∈ h.large) :
    InHeap page :=
  core.wiring.heap _ (List.mem_append_left _ (large_page member ⟨le_rfl, by have := core.counts page n member; omega⟩))

/-- The page is reserved and mapped to a frame of the pool. -/
def Backed (pages : Pages) (page : Nat) : Prop :=
  Reserved pages.vp page ∧ ∃ paddr, Taken pages.pp paddr ∧ pages.pte page = entry paddr

theorem Core.backed {page : Nat} (core : Core mblock h live others free) (member : page ∈ heapPages h) : Backed h.pages page := by
  have claim : page ∈ claimed h others := List.mem_append_left _ member
  obtain ⟨paddr, taken, -, pte⟩ := core.wiring.entries page claim
  exact ⟨core.wiring.reserved page claim, paddr, taken, pte⟩

theorem Core.class_unique {page i j : Nat} (core : Core mblock h live others free) (first : (page, i) ∈ h.arenas)
    (second : (page, j) ∈ h.arenas) : i = j := by
  have distinct := (List.nodup_append.mp (List.nodup_append.mp core.nodup).1).1
  exact congrArg Prod.snd (List.inj_on_of_nodup_map distinct first second rfl)

theorem Core.arena_apart_large {page i start n : Nat} (core : Core mblock h live others free)
    (arena : (page, i) ∈ h.arenas) (large : (start, n) ∈ h.large) : page ∉ pagesFrom start n := by
  intro inside
  have apart := (List.nodup_append.mp (List.nodup_append.mp core.nodup).1).2.2
  exact apart page (List.mem_map_of_mem (f := Prod.fst) arena) page
    (List.mem_flatMap.mpr ⟨_, large, List.mem_range'_1.mpr inside⟩) rfl

theorem Core.block_place {i x : Nat} (core : Core mblock h live others free) (block : IsBlock h.arenas i x) :
    InHeap (x / 4096) ∧ 12 ≤ x % 4096 ∧ x % 4096 + classSize i ≤ 4096 :=
  ⟨core.arena_heap block.place.1, block.place.2⟩

/-- Different blocks do not overlap. -/
theorem Core.block_gap {i j x y : Nat} (core : Core mblock h live others free) (first : IsBlock h.arenas i x)
    (second : IsBlock h.arenas j y) (different : x ≠ y) : x + classSize i ≤ y ∨ y + classSize j ≤ x := by
  obtain ⟨member, low, high⟩ := first.place
  obtain ⟨member', low', high'⟩ := second.place
  by_cases page : x / 4096 = y / 4096
  · rw [page] at member
    have same := core.class_unique member member'
    subst same
    obtain ⟨p, idx, -, inside, rfl⟩ := first
    obtain ⟨q, idx', -, inside', rfl⟩ := second
    have bounds := blockAt_bounds p inside
    have bounds' := blockAt_bounds q inside'
    have positive := classSize_ge i
    have equal : p = q := by omega
    subst equal
    rcases Nat.lt_trichotomy idx idx' with before | same | after
    · exact .inl (blockAt_gap _ _ before)
    · exact absurd (congrArg _ same) different
    · exact .inr (blockAt_gap _ _ after)
  · omega

theorem Core.node_cases {i x : Nat} (core : Core mblock h live others free) (small : i < MEM_BLOCK_CNT)
    (member : x ∈ nodes mblock free i) :
    x = descAt mblock i + 8 ∨ x = descAt mblock i + 16 ∨ IsBlock h.arenas i x ∧ x ∉ live := by
  simp only [nodes, freeList, List.mem_append, List.mem_cons, List.not_mem_nil, or_false] at member
  rcases member with (head | inside) | tail
  · exact .inl head
  · exact .inr (.inr ((core.members i small x).mp inside))
  · exact .inr (.inl tail)

theorem Core.desc_low {i : Nat} (core : Core mblock h live others free) (small : i < MEM_BLOCK_CNT) :
    descAt mblock i + 24 ≤ 0xC0100000 := by
  have placed := core.placed
  unfold MEM_BLOCK_CNT at placed small
  unfold K_HEAP_START at placed
  unfold descAt
  omega

theorem Core.node_fits {i x : Nat} (core : Core mblock h live others free) (small : i < MEM_BLOCK_CNT)
    (member : x ∈ nodes mblock free i) : x + 8 ≤ 2 ^ 32 := by
  have low := core.desc_low small
  rcases core.node_cases small member with rfl | rfl | ⟨block, -⟩
  · omega
  · omega
  · obtain ⟨heap, -, high⟩ := core.block_place block
    have positive := classSize_ge i
    have below := heap.2
    omega

theorem Core.node_gap {i j x y : Nat} (core : Core mblock h live others free) (small : i < MEM_BLOCK_CNT)
    (small' : j < MEM_BLOCK_CNT) (member : x ∈ nodes mblock free i) (member' : y ∈ nodes mblock free j)
    (different : x ≠ y) : x + 8 ≤ y ∨ y + 8 ≤ x := by
  have low := core.desc_low small
  have low' := core.desc_low small'
  have above : ∀ {k z}, IsBlock h.arenas k z → 0xC0100000 ≤ z ∧ 16 ≤ classSize k := by
    intro k z block
    obtain ⟨heap, -, -⟩ := core.block_place block
    have first := heap.1
    exact ⟨by omega, classSize_ge k⟩
  rcases core.node_cases small member with first | first | ⟨block, -⟩ <;>
    rcases core.node_cases small' member' with second | second | ⟨block', -⟩
  case inr.inr.inr.inr =>
    have gap := core.block_gap block block' different
    have room := (above block).2
    have room' := (above block').2
    omega
  case inl.inr.inr | inr.inl.inr.inr =>
    have high := (above block').1
    omega
  case inr.inr.inl | inr.inr.inr.inl =>
    have high := (above block).1
    omega
  all_goals
    unfold descAt at first second
    omega

/-- Lists of different classes share no node. -/
theorem Core.node_distinct {i j x y : Nat} (core : Core mblock h live others free) (small : i < MEM_BLOCK_CNT)
    (small' : j < MEM_BLOCK_CNT) (classes : i ≠ j) (member : x ∈ nodes mblock free i)
    (member' : y ∈ nodes mblock free j) : x ≠ y := by
  rintro rfl
  have low := core.desc_low small
  have low' := core.desc_low small'
  have above : ∀ {k}, IsBlock h.arenas k x → 0xC0100000 ≤ x := by
    intro k block
    have first := (core.block_place block).1.1
    omega
  rcases core.node_cases small member with first | first | ⟨block, -⟩ <;>
    rcases core.node_cases small' member' with second | second | ⟨block', -⟩
  case inr.inr.inr.inr => exact classes (core.class_unique block.place.1 block'.place.1)
  case inl.inr.inr | inr.inl.inr.inr =>
    have high := above block'
    omega
  case inr.inr.inl | inr.inr.inr.inl =>
    have high := above block
    omega
  all_goals
    unfold descAt at first second
    omega

/-- A node that is not the block itself lies outside it. -/
theorem Core.node_block {i j x b : Nat} (core : Core mblock h live others free) (small : j < MEM_BLOCK_CNT)
    (member : x ∈ nodes mblock free j) (block : IsBlock h.arenas i b) (different : x ≠ b) :
    x + 8 ≤ b ∨ b + classSize i ≤ x := by
  have low := core.desc_low small
  obtain ⟨heap, -, -⟩ := core.block_place block
  have first := heap.1
  rcases core.node_cases small member with rfl | rfl | ⟨block', -⟩
  · omega
  · omega
  · have gap := core.block_gap block' block different
    have room := classSize_ge j
    omega

theorem Core.node_header {j x page : Nat} (core : Core mblock h live others free) (small : j < MEM_BLOCK_CNT)
    (member : x ∈ nodes mblock free j) (heap : InHeap page) : x + 8 ≤ page * 4096 ∨ page * 4096 + 12 ≤ x := by
  have low := core.desc_low small
  have first := heap.1
  rcases core.node_cases small member with rfl | rfl | ⟨block, -⟩
  · omega
  · omega
  · obtain ⟨-, inside, room⟩ := core.block_place block
    have positive := classSize_ge j
    omega

theorem Core.block_header {i b : Nat} (core : Core mblock h live others free) (block : IsBlock h.arenas i b) (page : Nat) :
    b + classSize i ≤ page * 4096 ∨ page * 4096 + 12 ≤ b := by
  obtain ⟨-, inside, room⟩ := core.block_place block
  omega

/-- A list survives a change away from its nodes. -/
theorem Core.list_kept {i : Nat} (core : Core mblock h live others free) (small : i < MEM_BLOCK_CNT)
    (changes : ChangesOnly S h.mem m) (away : ∀ x ∈ nodes mblock free i, ∀ a ∈ Set.Ico x (x + 8), a ∉ S) :
    Holds m (freeList (descAt mblock i)) (free i) :=
  holds_kept (core.lists i small) changes (fun _ member => core.node_fits small member) away

/-- The words of a header survive a change away from it. -/
theorem header_kept {page : Nat} (heap : InHeap page) (changes : ChangesOnly S h.mem m)
    (away : ∀ a ∈ Set.Ico (page * 4096) (page * 4096 + 12), a ∉ S) :
    pMemBlock m (page * PG_SIZE) = pMemBlock h.mem (page * PG_SIZE) ∧
      cnt m (page * PG_SIZE) = cnt h.mem (page * PG_SIZE) ∧
      isPageCnt m (page * PG_SIZE) = isPageCnt h.mem (page * PG_SIZE) := by
  have below := heap.2
  have words : ∀ y, page * 4096 ≤ y → y + 4 ≤ page * 4096 + 12 → load32 m y = load32 h.mem y := by
    intro y low high
    apply changes.load32 (by omega)
    intro a inside
    exact away a (Set.mem_Ico.mpr ⟨low.trans inside.1, inside.2.trans_le high⟩)
  unfold pMemBlock cnt isPageCnt PG_SIZE
  refine ⟨words _ le_rfl (by omega), words _ (by omega) (by omega), ?_⟩
  have same : load m (page * 4096 + 8) = load h.mem (page * 4096 + 8) := by
    apply changes.load
    rw [Nat.mod_eq_of_lt (by omega)]
    exact away _ (Set.mem_Ico.mpr ⟨by omega, by omega⟩)
  rw [same]

theorem Core.descs_kept {i : Nat} (core : Core mblock h live others free) (small : i < MEM_BLOCK_CNT)
    (changes : ChangesOnly S h.mem m) (away : ∀ a ∈ Set.Ico (descAt mblock i) (descAt mblock i + 8), a ∉ S) :
    blockSize m (descAt mblock i) = classSize i ∧ blocksPerArena m (descAt mblock i) = classBlocks i := by
  have below := core.desc_low small
  obtain ⟨size, count⟩ := core.descs i small
  constructor
  · rw [← size]
    apply changes.load32 (by omega)
    rintro a ⟨low, high⟩
    exact away a ⟨by omega, by omega⟩
  · rw [← count]
    apply changes.load32 (by omega)
    rintro a ⟨low, high⟩
    exact away a ⟨by omega, by omega⟩

/-- So does what a header says. -/
theorem Core.arena_kept {page i : Nat} (core : Core mblock h live others free) (member : (page, i) ∈ h.arenas)
    (changes : ChangesOnly S h.mem m) (away : ∀ a ∈ Set.Ico (page * 4096) (page * 4096 + 12), a ∉ S) :
    pMemBlock m (page * PG_SIZE) = descAt mblock i ∧ cnt m (page * PG_SIZE) = freeCount page i live ∧
      isPageCnt m (page * PG_SIZE) = false := by
  obtain ⟨desc, count, kind⟩ := header_kept (core.arena_heap member) changes away
  obtain ⟨desc', count', kind'⟩ := core.headers page i member
  exact ⟨desc.trans desc', count.trans count', kind.trans kind'⟩

theorem Core.large_kept {page n : Nat} (core : Core mblock h live others free) (member : (page, n) ∈ h.large)
    (changes : ChangesOnly S h.mem m) (away : ∀ a ∈ Set.Ico (page * 4096) (page * 4096 + 12), a ∉ S) :
    cnt m (page * PG_SIZE) = n ∧ isPageCnt m (page * PG_SIZE) = true := by
  obtain ⟨-, count, kind⟩ := header_kept (core.large_heap member) changes away
  obtain ⟨count', kind'⟩ := core.larges page n member
  exact ⟨count.trans count', kind.trans kind'⟩

/-- The list of one class changes; the others survive. -/
theorem Core.lists_update {i : Nat} {list' : List Nat} (core : Core mblock h live others free)
    (changes : ChangesOnly S h.mem m) (list : Holds m (freeList (descAt mblock i)) list')
    (away : ∀ j < MEM_BLOCK_CNT, j ≠ i → ∀ x ∈ nodes mblock free j, ∀ a ∈ Set.Ico x (x + 8), a ∉ S) :
    ∀ j < MEM_BLOCK_CNT, Holds m (freeList (descAt mblock j)) (Function.update free i list' j) := by
  intro j small
  by_cases class_ : j = i
  · rw [class_, Function.update_self]
    exact list
  · rw [Function.update_of_ne class_]
    exact core.list_kept small changes (away j small class_)

/-- The pages that start with a header. -/
def headPages (h : HeapState) : List Nat := h.arenas.map Prod.fst ++ h.large.map Prod.fst

theorem Core.headPages_sub (core : Core mblock h live others free) : headPages h ⊆ heapPages h := by
  intro page member
  rcases List.mem_append.mp member with small | big
  · exact List.mem_append_left _ small
  · obtain ⟨⟨first, n⟩, inside, rfl⟩ := List.mem_map.mp big
    exact large_page inside ⟨le_rfl, by have := core.counts first n inside; omega⟩

/-- The bytes that the heap itself uses: descriptors, headers, and the links of free blocks. -/
def HeapBytes (mblock : Nat) (h : HeapState) (live : List Nat) : Set Nat :=
  {a | a ∈ Set.Ico mblock (mblock + 48 * MEM_BLOCK_CNT) ∨ a / 4096 ∈ headPages h ∧ a % 4096 < 12 ∨
    ∃ i x, IsBlock h.arenas i x ∧ x ∉ live ∧ a ∈ Set.Ico x (x + 8)}

/-- These bytes, with everything that lies below the heap. -/
def Bookkeeping (h : HeapState) (live : List Nat) : Set Nat :=
  {a | a < K_HEAP_START ∨ a / 4096 ∈ headPages h ∧ a % 4096 < 12 ∨
    ∃ i x, IsBlock h.arenas i x ∧ x ∉ live ∧ a ∈ Set.Ico x (x + 8)}

theorem Core.heapBytes_bookkeeping {a : Nat} (core : Core mblock h live others free) (inside : a ∈ HeapBytes mblock h live) :
    a ∈ Bookkeeping h live := by
  have placed := core.placed
  rcases inside with desc | rest
  · exact .inl (desc.2.trans_le placed)
  · exact .inr rest

theorem arena_headPage {page i : Nat} (member : (page, i) ∈ h.arenas) : page ∈ headPages h :=
  List.mem_append_left _ (List.mem_map.mpr ⟨_, member, rfl⟩)

theorem large_headPage {page n : Nat} (member : (page, n) ∈ h.large) : page ∈ headPages h :=
  List.mem_append_right _ (List.mem_map.mpr ⟨_, member, rfl⟩)

theorem header_heapBytes {page a : Nat} (member : page ∈ headPages h)
    (inside : a ∈ Set.Ico (page * 4096) (page * 4096 + 12)) : a ∈ HeapBytes mblock h live := by
  obtain ⟨first, last⟩ := inside
  right
  left
  rw [show a / 4096 = page by omega]
  exact ⟨member, by omega⟩

theorem desc_heapBytes {i a : Nat} (small : i < MEM_BLOCK_CNT)
    (inside : a ∈ Set.Ico (descAt mblock i) (descAt mblock i + 48)) : a ∈ HeapBytes mblock h live := by
  obtain ⟨first, last⟩ := inside
  left
  unfold descAt at first last
  exact ⟨by omega, by omega⟩

theorem Core.node_heapBytes {i x a : Nat} (core : Core mblock h live others free) (small : i < MEM_BLOCK_CNT)
    (member : x ∈ nodes mblock free i) (inside : a ∈ Set.Ico x (x + 8)) : a ∈ HeapBytes mblock h live := by
  obtain ⟨first, last⟩ := inside
  rcases core.node_cases small member with rfl | rfl | ⟨block, dead⟩
  · exact desc_heapBytes small ⟨by omega, by omega⟩
  · exact desc_heapBytes small ⟨by omega, by omega⟩
  · exact .inr (.inr ⟨i, x, block, dead, first, last⟩)

/-- A change outside them. -/
theorem Core.remem (core : Core mblock h live others free) (changes : ChangesOnly S h.mem m)
    (away : ∀ a ∈ HeapBytes mblock h live, a ∉ S) : Core mblock (setMem h m) live others free := by
  refine ⟨core.placed, core.wiring, core.nodup, core.classes, core.counts, ?_, ?_, core.members, ?_, ?_⟩
  · intro i small
    apply core.descs_kept small changes
    rintro a ⟨first, last⟩
    exact away a (desc_heapBytes small ⟨first, by omega⟩)
  · intro i small
    apply core.list_kept small changes
    exact fun x member a inside => away a (core.node_heapBytes small member inside)
  · intro page i member
    apply core.arena_kept member changes
    exact fun a inside => away a (header_heapBytes (arena_headPage member) inside)
  · intro page n member
    apply core.large_kept member changes
    exact fun a inside => away a (header_heapBytes (large_headPage member) inside)

/-! One class and one arena move. -/

/-- What an operation on block `b` of class `i` writes: the nodes of the list, the block, and the
free count in the header. -/
def Touched (mblock : Nat) (free : Nat → List Nat) (i b : Nat) : Set Nat :=
  cells (b :: nodes mblock free i) ∪ Set.Ico b (b + classSize i) ∪
    Set.Ico (b / 4096 * 4096 + 4) (b / 4096 * 4096 + 8)

/-- The nodes of the other lists are not touched. -/
theorem Core.untouched_node {i j b x a : Nat} (core : Core mblock h live others free) (small : i < MEM_BLOCK_CNT)
    (small' : j < MEM_BLOCK_CNT) (block : IsBlock h.arenas i b) (member : x ∈ nodes mblock free j)
    (away : x ∉ b :: nodes mblock free i) (inside : a ∈ Set.Ico x (x + 8)) : a ∉ Touched mblock free i b := by
  have heap := (core.block_place block).1
  have room := classSize_ge i
  have different : x ≠ b := fun same => away (same ▸ List.mem_cons_self)
  obtain ⟨low, high⟩ := inside
  rintro ((⟨y, node, low', high'⟩ | ⟨low', high'⟩) | ⟨low', high'⟩)
  · rcases List.mem_cons.mp node with rfl | node
    · have gap := core.node_block small' member block different
      omega
    · have apart : x ≠ y := by
        rintro rfl
        exact away (List.mem_cons_of_mem _ node)
      have gap := core.node_gap small' small member node apart
      omega
  · have gap := core.node_block small' member block different
    omega
  · have gap := core.node_header small' member heap
    omega

/-- Only the count of the one header is touched. -/
theorem Core.untouched_header {i b page a : Nat} (core : Core mblock h live others free) (small : i < MEM_BLOCK_CNT)
    (block : IsBlock h.arenas i b) (heap : InHeap page) (inside : a ∈ Set.Ico (page * 4096) (page * 4096 + 12))
    (touched : a ∈ Touched mblock free i b) :
    a ∈ Set.Ico (b / 4096 * 4096 + 4) (b / 4096 * 4096 + 8) := by
  have room := classSize_ge i
  obtain ⟨low, high⟩ := inside
  rcases touched with (⟨y, node, low', high'⟩ | ⟨low', high'⟩) | count
  · exfalso
    rcases List.mem_cons.mp node with rfl | node
    · have gap := core.block_header block page
      omega
    · have gap := core.node_header small node heap
      omega
  · exfalso
    have gap := core.block_header block page
    omega
  · exact count

theorem Core.untouched_desc {i j b a : Nat} (core : Core mblock h live others free) (small : i < MEM_BLOCK_CNT)
    (small' : j < MEM_BLOCK_CNT) (block : IsBlock h.arenas i b)
    (inside : a ∈ Set.Ico (descAt mblock j) (descAt mblock j + 8)) : a ∉ Touched mblock free i b := by
  have low := core.desc_low small'
  have first := (core.block_place block).1.1
  obtain ⟨from_, upto⟩ := inside
  rintro ((⟨y, node, low', high'⟩ | ⟨low', high'⟩) | ⟨low', high'⟩)
  · rcases List.mem_cons.mp node with rfl | node
    · omega
    · rcases core.node_cases small node with rfl | rfl | ⟨block', -⟩
      · unfold descAt at *
        omega
      · unfold descAt at *
        omega
      · have first' := (core.block_place block').1.1
        omega
  · omega
  · omega

theorem freeCount_congr {page i : Nat} {live' : List Nat}
    (same : ∀ idx < classBlocks i, blockAt page i idx ∈ live' ↔ blockAt page i idx ∈ live) :
    freeCount page i live' = freeCount page i live := by
  unfold freeCount
  congr 1
  apply Finset.filter_congr
  intro idx inside
  rw [same idx (Finset.mem_range.mp inside)]

theorem freeCount_cons {page i idx : Nat} (inside : idx < classBlocks i) (dead : blockAt page i idx ∉ live) :
    freeCount page i live = freeCount page i (blockAt page i idx :: live) + 1 := by
  have member : idx ∈ (Finset.range (classBlocks i)).filter fun idx => blockAt page i idx ∉ live := by
    rw [Finset.mem_filter, Finset.mem_range]
    exact ⟨inside, dead⟩
  have rest : (Finset.range (classBlocks i)).filter (fun k => blockAt page i k ∉ blockAt page i idx :: live) =
      ((Finset.range (classBlocks i)).filter fun k => blockAt page i k ∉ live).erase idx := by
    ext k
    rw [Finset.mem_erase, Finset.mem_filter, Finset.mem_filter, List.mem_cons]
    constructor
    · rintro ⟨below, away⟩
      exact ⟨fun same => away (.inl (same ▸ rfl)), below, fun inside => away (.inr inside)⟩
    · rintro ⟨different, below, away⟩
      refine ⟨below, ?_⟩
      rintro (same | inside)
      · exact different (blockAt_injective same)
      · exact away inside
  unfold freeCount
  rw [rest, Finset.card_erase_add_one member]

theorem freeCount_le (page i : Nat) (live : List Nat) : freeCount page i live ≤ classBlocks i := by
  have bound := Finset.card_filter_le (Finset.range (classBlocks i)) fun idx => blockAt page i idx ∉ live
  rwa [Finset.card_range] at bound

theorem freeCount_full {page i : Nat} :
    freeCount page i live = classBlocks i ↔ ∀ idx < classBlocks i, blockAt page i idx ∉ live := by
  unfold freeCount
  have full := Finset.card_filter_eq_iff (s := Finset.range (classBlocks i)) (p := fun idx => blockAt page i idx ∉ live)
  rw [Finset.card_range] at full
  rw [full]
  simp only [Finset.mem_range]

theorem Core.other_class {i j x b : Nat} (core : Core mblock h live others free) (block : IsBlock h.arenas i b)
    (block' : IsBlock h.arenas j x) (other : j ≠ i) : x ≠ b := by
  rintro rfl
  exact other (core.class_unique block'.place.1 block.place.1)

/-- The nodes of the other classes are not touched. -/
theorem Core.untouched_class {i j b x a : Nat} (core : Core mblock h live others free) (small : i < MEM_BLOCK_CNT)
    (small' : j < MEM_BLOCK_CNT) (block : IsBlock h.arenas i b) (other : j ≠ i) (member : x ∈ nodes mblock free j)
    (inside : a ∈ Set.Ico x (x + 8)) : a ∉ Touched mblock free i b := by
  apply core.untouched_node small small' block member _ inside
  intro node
  rcases List.mem_cons.mp node with rfl | node
  · have first := (core.block_place block).1.1
    have below := core.desc_low small'
    rcases core.node_cases small' member with low | low | ⟨block', -⟩
    · omega
    · omega
    · exact core.other_class block block' other rfl
  · exact core.node_distinct small' small other member node rfl

/-- Of the headers, only the count of the block's own arena is touched. -/
theorem Core.turn_header {i j b page : Nat} (core : Core mblock h live others free) (small : i < MEM_BLOCK_CNT)
    (block : IsBlock h.arenas i b) (changes : ChangesOnly (Touched mblock free i b) h.mem m)
    (member : (page, j) ∈ h.arenas) :
    pMemBlock m (page * PG_SIZE) = descAt mblock j ∧ isPageCnt m (page * PG_SIZE) = false ∧
      (page ≠ b / 4096 → cnt m (page * PG_SIZE) = freeCount page j live) := by
  have heap := core.arena_heap member
  have below := heap.2
  obtain ⟨desc, count, kind⟩ := core.headers page j member
  have words : ∀ y, page * 4096 ≤ y → y + 4 ≤ page * 4096 + 12 →
      y + 4 ≤ b / 4096 * 4096 + 4 ∨ b / 4096 * 4096 + 8 ≤ y → load32 m y = load32 h.mem y := by
    intro y low high apart
    apply changes.load32 (by omega)
    rintro a ⟨from_, upto⟩ touched
    have word := core.untouched_header small block heap (Set.mem_Ico.mpr ⟨by omega, by omega⟩) touched
    obtain ⟨low', high'⟩ := Set.mem_Ico.mp word
    omega
  have byte : load m (page * 4096 + 8) = load h.mem (page * 4096 + 8) := by
    apply changes.load
    rw [Nat.mod_eq_of_lt (by omega)]
    intro touched
    have word := core.untouched_header small block heap (Set.mem_Ico.mpr ⟨by omega, by omega⟩) touched
    obtain ⟨low', high'⟩ := Set.mem_Ico.mp word
    omega
  refine ⟨?_, ?_, ?_⟩
  · unfold pMemBlock PG_SIZE at *
    rw [words (page * 4096) le_rfl (by omega) (by omega)]
    exact desc
  · unfold isPageCnt PG_SIZE at *
    rw [byte]
    exact kind
  · intro other
    rw [← count]
    unfold cnt PG_SIZE
    exact words _ (by omega) (by omega) (by omega)

theorem freeCount_other {page i b : Nat} {live' : List Nat} (same : ∀ x, x ≠ b → (x ∈ live' ↔ x ∈ live))
    (other : page ≠ b / 4096) : freeCount page i live' = freeCount page i live := by
  apply freeCount_congr
  intro idx inside
  apply same
  rintro rfl
  have bounds := blockAt_bounds page inside
  have positive := classSize_ge i
  omega

/-- A block changes hands between its free list and the clients. -/
theorem Core.turn {i b : Nat} {live' list' : List Nat} (core : Core mblock h live others free)
    (small : i < MEM_BLOCK_CNT) (block : IsBlock h.arenas i b)
    (changes : ChangesOnly (Touched mblock free i b) h.mem m) (list : Holds m (freeList (descAt mblock i)) list')
    (members : ∀ x, x ∈ list' ↔ IsBlock h.arenas i x ∧ x ∉ live')
    (same : ∀ x, x ≠ b → (x ∈ live' ↔ x ∈ live))
    (count : cnt m (b / 4096 * 4096) = freeCount (b / 4096) i live') :
    Core mblock (setMem h m) live' others (Function.update free i list') := by
  refine ⟨core.placed, core.wiring, core.nodup, core.classes, core.counts, ?_, ?_, ?_, ?_, ?_⟩
  · intro j small'
    exact core.descs_kept small' changes fun a within => core.untouched_desc small small' block within
  · apply core.lists_update changes list
    intro j small' other x member a within
    exact core.untouched_class small small' block other member within
  · intro j small' x
    by_cases class_ : j = i
    · subst class_
      rw [Function.update_self]
      exact members x
    · rw [Function.update_of_ne class_, core.members j small' x]
      constructor
      · rintro ⟨block', dead⟩
        exact ⟨block', fun now => dead ((same x (core.other_class block block' class_)).mp now)⟩
      · rintro ⟨block', dead⟩
        exact ⟨block', fun before => dead ((same x (core.other_class block block' class_)).mpr before)⟩
  · intro page j member
    obtain ⟨desc, kind, elsewhere⟩ := core.turn_header small block changes member
    refine ⟨desc, ?_, kind⟩
    by_cases here : page = b / 4096
    · subst here
      rw [core.class_unique member block.place.1]
      exact count
    · rw [freeCount_other same here]
      exact elsewhere here
  · intro page n member
    apply core.large_kept member changes
    intro a within touched
    obtain ⟨low, high⟩ := Set.mem_Ico.mp (core.untouched_header small block (core.large_heap member) within touched)
    obtain ⟨low', high'⟩ := within
    have page' : page = b / 4096 := by omega
    exact core.arena_apart_large block.place.1 member (page' ▸ ⟨le_rfl, by have := core.counts page n member; omega⟩)

end KOS.HeapLayout
