import KOS.HeapBlocks

/-! Pages come to the heap and go, and other owners take and release pages. -/

namespace KOS.HeapLayout
open KOS.ByteMemory KOS.LinkMemory KOS.DoublyLinked KOS.KernelList KOS.Paging KOS.PageWiring KOS.PageCalls KOS.Heap
  NodeStore

variable {mblock : Nat} {h : HeapState} {live live' others : List Nat} {free : Nat → List Nat} {m : Memory} {pages : Pages}

/-- The bytes of the heap pages that nobody has claimed. -/
def Unclaimed (h : HeapState) (others : List Nat) : Set Nat := {a | InHeap (a / 4096) ∧ a / 4096 ∉ claimed h others}

theorem Core.own_claimed {a : Nat} (core : Core mblock h live others free) (own : a ∈ Bookkeeping h live) :
    a ∉ Unclaimed h others := by
  rintro ⟨heap, free_⟩
  rcases own with low | ⟨page, -⟩ | ⟨i, x, block, -, low, high⟩
  · have first := heap.1
    unfold K_HEAP_START at low
    omega
  · exact free_ (List.mem_append_left _ (core.headPages_sub page))
  · obtain ⟨member, -, room⟩ := block.place
    have positive := classSize_ge i
    have same : a / 4096 = x / 4096 := by omega
    rw [same] at free_
    exact free_ (List.mem_append_left _ (List.mem_append_left _ (List.mem_map_of_mem (f := Prod.fst) member)))

theorem Core.repage (core : Core mblock h live others free)
    (wires : Wired pages (claimed h others) (claimed h others) ∅) (changes : ChangesOnly (Unclaimed h others) h.mem m) :
    Core mblock (setPages h pages m) live others free := by
  have kept := core.remem changes fun a own => core.own_claimed (core.heapBytes_bookkeeping own)
  exact ⟨core.placed, wires, core.nodup, core.classes, core.counts, kept.descs, kept.lists, kept.members, kept.headers,
    kept.larges⟩

/-- Who counts as live only matters for blocks. -/
theorem Core.relive (core : Core mblock h live others free)
    (same : ∀ i x, IsBlock h.arenas i x → (x ∈ live' ↔ x ∈ live)) : Core mblock h live' others free := by
  refine ⟨core.placed, core.wiring, core.nodup, core.classes, core.counts, core.descs, core.lists, ?_, ?_, core.larges⟩
  · intro i small x
    rw [core.members i small x]
    constructor
    · rintro ⟨block, dead⟩
      exact ⟨block, fun now => dead ((same i x block).mp now)⟩
    · rintro ⟨block, dead⟩
      exact ⟨block, fun before => dead ((same i x block).mpr before)⟩
  · intro page i member
    obtain ⟨pointer, count, kind⟩ := core.headers page i member
    refine ⟨pointer, ?_, kind⟩
    rw [count]
    symm
    apply freeCount_congr
    intro idx inside
    exact same i _ ⟨page, idx, member, inside, rfl⟩

/-- What a call of `page_acquire` does to the memory and to the claims. -/
theorem Core.acquire {vaddr n start : Nat} (fresh : Memory) (core : Core mblock h live others free)
    (request : Request h.pages.vp vaddr n) (ran : pageAcquire h.pages vaddr n = (start, pages)) :
    ChangesOnly (Unclaimed h others) h.mem (remap h.pages pages h.mem fresh) ∧
      (start = 0 ∧ Wired pages (claimed h others) (claimed h others) ∅ ∨
        start ≠ 0 ∧ ∃ page, start = page * 4096 ∧
          (∀ q ∈ pagesFrom page n, InHeap q ∧ q ∉ claimed h others) ∧
          Wired pages (claimed h others ∪ pagesFrom page n) (claimed h others ∪ pagesFrom page n) ∅) := by
  obtain ⟨ptes, outcome⟩ := pageAcquire_wired core.wiring subset_rfl request ran
  constructor
  · intro a outside
    apply if_pos
    unfold PG_SIZE
    apply ptes
    by_contra other
    rw [not_or, not_not] at other
    exact outside ⟨other.2, other.1⟩
  · rcases outcome with failed | ⟨some, aligned, -, free_, wires⟩
    · exact .inl failed
    · have page : start = start / PG_SIZE * 4096 := by
        unfold PG_SIZE at *
        omega
      exact .inr ⟨some, start / PG_SIZE, page, free_, wires⟩

theorem page_unclaimed {page n : Nat} (free_ : ∀ q ∈ pagesFrom page n, InHeap q ∧ q ∉ claimed h others) :
    Set.Ico (page * 4096) (page * 4096 + n * 4096) ⊆ Unclaimed h others := by
  rintro a ⟨low, high⟩
  exact free_ (a / 4096) ⟨by omega, by omega⟩

theorem setHeader_changes {a : Nat} (desc count : Nat) (kind : Bool) (m : Memory) (fits : a + 12 ≤ 2 ^ 32) :
    ChangesOnly (Set.Ico a (a + 12)) m (setHeader m a desc count kind) := by
  have first : ChangesOnly (Set.Ico a (a + 12)) m (store32 m a desc) :=
    (store32_changes m desc (by omega)).mono (Set.Ico_subset_Ico_right (by omega))
  have second : ChangesOnly (Set.Ico a (a + 12)) (store32 m a desc) (setCnt (store32 m a desc) a count) :=
    (setCnt_changes _ count (by omega)).mono (Set.Ico_subset_Ico (by omega) (by omega))
  apply (first.trans second).trans
  apply (store_changes _ _ (by omega)).mono
  rintro x rfl
  exact Set.mem_Ico.mpr ⟨by omega, by omega⟩

theorem setHeader_reads {a desc count : Nat} (kind : Bool) (m : Memory) (fits : a + 12 ≤ 2 ^ 32)
    (small : desc < 2 ^ 32) (small' : count < 2 ^ 32) :
    pMemBlock (setHeader m a desc count kind) a = desc ∧ cnt (setHeader m a desc count kind) a = count ∧
      isPageCnt (setHeader m a desc count kind) a = kind := by
  have byte := store_changes (setCnt (store32 m a desc) a count) (a := a + 8) (if kind then 1 else 0) (by omega)
  have word := setCnt_changes (store32 m a desc) (a := a) count (by omega)
  refine ⟨?_, ?_, ?_⟩
  · have kept := byte.load32 (a := a) (by omega) (by rintro x ⟨low, high⟩ rfl; omega)
    have kept' := word.load32 (a := a) (by omega) (by rintro x ⟨low, high⟩ ⟨low', high'⟩; omega)
    exact kept.trans (kept'.trans (load32_store32 m a small))
  · have kept := byte.load32 (a := a + 4) (by omega) (by rintro x ⟨low, high⟩ rfl; omega)
    have stored := cnt_setCnt (store32 m a desc) a count
    rw [Nat.mod_eq_of_lt small'] at stored
    exact kept.trans stored
  · unfold isPageCnt setHeader
    rw [load_store, if_pos rfl]
    cases kind <;> rfl

/-- The sentinels of a class lie apart from the nodes of the others. -/
theorem Core.node_sentinels {i j x : Nat} (core : Core mblock h live others free) (small : i < MEM_BLOCK_CNT)
    (small' : j < MEM_BLOCK_CNT) (other : j ≠ i) (member : x ∈ nodes mblock free j) :
    x + 8 ≤ descAt mblock i + 8 ∨ descAt mblock i + 24 ≤ x := by
  have head : descAt mblock i + 8 ∈ nodes mblock free i := by simp [nodes, freeList]
  have tail : descAt mblock i + 16 ∈ nodes mblock free i := by simp [nodes, freeList]
  have gap := core.node_gap small' small member head (core.node_distinct small' small other member head)
  have gap' := core.node_gap small' small member tail (core.node_distinct small' small other member tail)
  omega

/-- The blocks of a new arena join the free list of their class. -/
theorem Core.members_join {page i : Nat} (core : Core mblock h live others free) (empty : free i = [])
    (dead : ∀ idx < classBlocks i, blockAt page i idx ∉ live) {j : Nat} (small : j < MEM_BLOCK_CNT) (x : Nat) :
    x ∈ Function.update free i ((List.range (classBlocks i)).map (blockAt page i)) j ↔
      IsBlock ((page, i) :: h.arenas) j x ∧ x ∉ live := by
  rw [IsBlock.cons]
  by_cases class_ : j = i
  · subst class_
    have none := core.members j small x
    rw [empty] at none
    rw [Function.update_self, List.mem_map]
    constructor
    · rintro ⟨idx, inside, rfl⟩
      have index := List.mem_range.mp inside
      exact ⟨.inr ⟨rfl, idx, index, rfl⟩, dead idx index⟩
    · rintro ⟨old | ⟨-, idx, inside, rfl⟩, free_⟩
      · exact absurd (none.mpr ⟨old, free_⟩) List.not_mem_nil
      · exact ⟨idx, List.mem_range.mpr inside, rfl⟩
  · rw [Function.update_of_ne class_, core.members j small x]
    constructor
    · rintro ⟨old, free_⟩
      exact ⟨.inl old, free_⟩
    · rintro ⟨old | ⟨same, -⟩, free_⟩
      · exact ⟨old, free_⟩
      · exact absurd same class_

/-- An arena joins: its page was not claimed, and its blocks are on the list, which was empty. -/
theorem Core.join {page i : Nat} (core : Core mblock h live others free) (small : i < MEM_BLOCK_CNT) (empty : free i = [])
    (free_ : InHeap page ∧ page ∉ claimed h others)
    (wires : Wired pages (claimed h others ∪ pagesFrom page 1) (claimed h others ∪ pagesFrom page 1) ∅)
    (changes : ChangesOnly (Unclaimed h others ∪ Set.Ico (descAt mblock i + 8) (descAt mblock i + 24)) h.mem m)
    (list : Holds m (freeList (descAt mblock i)) ((List.range (classBlocks i)).map (blockAt page i)))
    (header : pMemBlock m (page * 4096) = descAt mblock i ∧ cnt m (page * 4096) = classBlocks i ∧
      isPageCnt m (page * 4096) = false)
    (owned : ∀ p ∈ live, p / 4096 ∈ heapPages h) :
    Core mblock (addArena (setPages h pages m) page i) live others
      (Function.update free i ((List.range (classBlocks i)).map (blockAt page i))) := by
  obtain ⟨heap, fresh⟩ := free_
  have more : claimed (addArena (setPages h pages m) page i) others ⊆ claimed h others ∪ pagesFrom page 1 := by
    intro q member
    rcases List.mem_cons.mp member with rfl | before
    · exact .inr ⟨le_rfl, by omega⟩
    · exact .inl before
  have dead : ∀ idx < classBlocks i, blockAt page i idx ∉ live := by
    intro idx inside used
    have bounds := blockAt_bounds page inside
    have positive := classSize_ge i
    have index : blockAt page i idx / 4096 = page := by omega
    have own := owned _ used
    rw [index] at own
    exact fresh (List.mem_append_left _ own)
  have kept : ∀ a, a ∈ HeapBytes mblock h live → a ∉ Set.Ico (descAt mblock i + 8) (descAt mblock i + 24) →
      a ∉ Unclaimed h others ∪ Set.Ico (descAt mblock i + 8) (descAt mblock i + 24) := by
    rintro a own away (out | sentinel)
    · exact core.own_claimed (core.heapBytes_bookkeeping own) out
    · exact away sentinel
  have low := core.desc_low small
  have header_ : ∀ q, q ∈ headPages h → InHeap q → ∀ a ∈ Set.Ico (q * 4096) (q * 4096 + 12),
      a ∉ Unclaimed h others ∪ Set.Ico (descAt mblock i + 8) (descAt mblock i + 24) := by
    intro q member heap' a inside
    have first := heap'.1
    have from_ := inside.1
    apply kept a (header_heapBytes member inside)
    rintro ⟨low', high'⟩
    omega
  refine ⟨core.placed, wires.weaken more more subset_rfl, ?_, ?_, core.counts, ?_, ?_, ?_, ?_, ?_⟩
  · exact List.nodup_cons.mpr ⟨fresh, core.nodup⟩
  · intro q j member
    rcases List.mem_cons.mp member with new | old
    · cases new
      exact small
    · exact core.classes q j old
  · intro j small'
    apply core.descs_kept small' changes
    rintro a ⟨from_, upto⟩
    apply kept a (desc_heapBytes small' ⟨from_, by omega⟩)
    rintro ⟨low', high'⟩
    unfold descAt at *
    omega
  · apply core.lists_update changes list
    intro j small' other x member a inside
    apply kept a (core.node_heapBytes small' member inside)
    have gap := core.node_sentinels small small' other member
    obtain ⟨from_, upto⟩ := inside
    rintro ⟨low', high'⟩
    omega
  · intro j small' x
    exact core.members_join empty dead small' x
  · intro q j member
    rcases List.mem_cons.mp member with new | old
    · cases new
      obtain ⟨pointer, count, kind⟩ := header
      refine ⟨pointer, ?_, kind⟩
      rw [freeCount_full.mpr dead]
      exact count
    · exact core.arena_kept old changes (header_ q (arena_headPage old) (core.arena_heap old))
  · intro q n member
    exact core.large_kept member changes (header_ q (large_headPage member) (core.large_heap member))

/-- What carving a fresh page writes: the rest of the page, and the sentinels of the list. -/
theorem Core.carve {page i : Nat} (core : Core mblock h live others free) (small : i < MEM_BLOCK_CNT) (empty : free i = [])
    (heap : InHeap page) (pointer : pMemBlock h.mem (page * 4096) = descAt mblock i) :
    Holds (splitArena (page * 4096) (classBlocks i) 0 h.mem) (freeList (descAt mblock i))
        ((List.range (classBlocks i)).map (blockAt page i)) ∧
      ChangesOnly (Set.Ico (descAt mblock i + 8) (descAt mblock i + 24) ∪
        Set.Ico (page * 4096 + 12) (page * 4096 + 4096)) h.mem (splitArena (page * 4096) (classBlocks i) 0 h.mem) := by
  have low := core.desc_low small
  obtain ⟨first, last⟩ := heap
  have bounds : ∀ k, 0 ≤ k → k < 0 + classBlocks i →
      page * 4096 + 12 ≤ blockAt page i k ∧ blockAt page i k + classSize i ≤ page * 4096 + 4096 := by
    intro k _ inside
    exact blockAt_bounds page (by omega)
  have positive := classSize_ge i
  have holds := core.lists i small
  rw [empty] at holds
  have node : ∀ x ∈ (freeList (descAt mblock i)).head :: [] ++ [(freeList (descAt mblock i)).tail],
      x = descAt mblock i + 8 ∨ x = descAt mblock i + 16 := by
    intro x member
    simpa [freeList] using member
  have split := splitArena_holds page i 0 (a := page * 4096)
    (S := Set.Ico (descAt mblock i + 8) (descAt mblock i + 24) ∪ Set.Ico (page * 4096 + 12) (page * 4096 + 4096)) holds
    (fun x member => by rcases node x member with rfl | rfl <;> omega)
    (fun k start stop => by have := bounds k start stop; omega)
    (fun k start stop x member => by
      have := bounds k start stop
      rcases node x member with rfl | rfl <;> omega)
    (fun k start stop a inside => by
      have bound := bounds k start stop
      obtain ⟨from_, upto⟩ := Set.mem_Ico.mp inside
      exact .inr (Set.mem_Ico.mpr ⟨by omega, by omega⟩))
    (fun a cell => by
      obtain ⟨x, member, from_, upto⟩ := cell
      left
      apply Set.mem_Ico.mpr
      rcases node x member with rfl | rfl
      · exact ⟨by omega, by omega⟩
      · exact ⟨by omega, by omega⟩)
    (fun m' changes => by
      have pointer' := (header_kept ⟨first, last⟩ changes (fun a inside => by
        obtain ⟨from_, upto⟩ := Set.mem_Ico.mp inside
        rintro (⟨low', high'⟩ | touched)
        · omega
        · obtain ⟨low', high'⟩ := Set.mem_Ico.mp touched
          omega)).1
      have size := (core.descs_kept small changes (fun a inside => by
        obtain ⟨from_, upto⟩ := inside
        rintro (⟨low', high'⟩ | touched)
        · omega
        · obtain ⟨low', high'⟩ := Set.mem_Ico.mp touched
          omega)).1
      unfold PG_SIZE at pointer'
      exact ⟨pointer'.trans pointer, fun k _ stop =>
        arena2block_eq ⟨first, last⟩ (by omega) (pointer'.trans pointer) size⟩)
  rw [List.nil_append, ← List.range_eq_range'] at split
  exact split

/-- The outcomes of the first half of `mem_acquire`. -/
inductive Grown (mblock : Nat) (h : HeapState) (live others : List Nat) (free : Nat → List Nat) (i : Nat) :
    Bool × HeapState → Prop where
  | filled (some : free i ≠ []) : Grown mblock h live others free i (true, h)
  | failed (pages : Pages) (m : Memory) (empty : free i = []) (null : (pageAcquire h.pages 0 1).1 = 0)
      (core : Core mblock (setPages h pages m) live others free)
      (changes : ChangesOnly (Unclaimed h others) h.mem m) : Grown mblock h live others free i (false, setPages h pages m)
  | joined (page : Nat) (pages : Pages) (m : Memory) (empty : free i = []) (fresh : page ∉ claimed h others)
      (core : Core mblock (addArena (setPages h pages m) page i) live others
        (Function.update free i ((List.range (classBlocks i)).map (blockAt page i))))
      (changes : ChangesOnly (Unclaimed h others ∪ Set.Ico (descAt mblock i + 8) (descAt mblock i + 24)) h.mem m) :
      Grown mblock h live others free i (true, addArena (setPages h pages m) page i)

theorem Core.grow {i : Nat} (fresh : Memory) (core : Core mblock h live others free) (small : i < MEM_BLOCK_CNT)
    (request : free i = [] → Request h.pages.vp 0 1) (owned : ∀ p ∈ live, p / 4096 ∈ heapPages h) :
    Grown mblock h live others free i (growArena h mblock i fresh) := by
  have emptiness := listEmpty_iff (core.lists i small) not_apart_self
  by_cases empty : free i = []
  · have none : listEmpty h.mem (freeList (descAt mblock i)) = true := emptiness.mpr empty
    cases ran : pageAcquire h.pages 0 1 with
    | mk a pages =>
      obtain ⟨mapped, outcome⟩ := core.acquire fresh (request empty) ran
      rcases outcome with ⟨null, wires⟩ | ⟨some, page, rfl, free_, wires⟩
      · have result : growArena h mblock i fresh = (false, setPages h pages (remap h.pages pages h.mem fresh)) := by
          simp only [growArena, if_pos none, ran, if_pos null]
        rw [result]
        exact .failed pages _ empty ((congrArg Prod.fst ran).trans null) (core.repage wires mapped) mapped
      · have only : page ∈ pagesFrom page 1 := ⟨le_rfl, by omega⟩
        obtain ⟨heap, unclaimed⟩ := free_ page only
        have below := heap.2
        have low := core.desc_low small
        have inside := page_unclaimed free_
        rw [Nat.one_mul] at inside
        have cleared : ChangesOnly (Unclaimed h others) h.mem (memset (remap h.pages pages h.mem fresh) (page * 4096) 0 4096) :=
          mapped.trans ((memset_changes _ 0 (by omega)).mono inside)
        have blocks := (core.remem cleared fun a own => core.own_claimed (core.heapBytes_bookkeeping own)).descs i small
        generalize clear : memset (remap h.pages pages h.mem fresh) (page * 4096) 0 4096 = m1 at cleared blocks
        rw [show (setMem h m1).mem = m1 from rfl] at blocks
        have few : classBlocks i < 2 ^ 32 := by
          have most := Nat.div_le_self (PG_SIZE - ARENA_SIZE) (classSize i)
          unfold classBlocks
          unfold PG_SIZE ARENA_SIZE at *
          omega
        obtain ⟨pointer, count, kind⟩ := setHeader_reads (a := page * 4096) false m1 (by omega)
          (show descAt mblock i < 2 ^ 32 by omega) few
        have headed : ChangesOnly (Unclaimed h others) h.mem (setHeader m1 (page * 4096) (descAt mblock i) (classBlocks i) false) := by
          apply cleared.trans
          apply (setHeader_changes _ _ false m1 (by omega)).mono
          exact (Set.Ico_subset_Ico_right (by omega)).trans inside
        have core' := core.remem headed fun a own => core.own_claimed (core.heapBytes_bookkeeping own)
        generalize head : setHeader m1 (page * 4096) (descAt mblock i) (classBlocks i) false = m2 at *
        obtain ⟨list, carved⟩ := core'.carve small empty heap pointer
        obtain ⟨-, number⟩ := core'.descs i small
        rw [show (setMem h m2).mem = m2 from rfl] at list carved number
        have header := header_kept (h := setMem h m2) heap carved (fun a within => by
          obtain ⟨from_, upto⟩ := Set.mem_Ico.mp within
          have first := heap.1
          rintro (⟨low', high'⟩ | touched)
          · omega
          · obtain ⟨low', high'⟩ := Set.mem_Ico.mp touched
            omega)
        unfold PG_SIZE at header
        have whole : ChangesOnly (Unclaimed h others ∪ Set.Ico (descAt mblock i + 8) (descAt mblock i + 24)) h.mem
            (splitArena (page * 4096) (classBlocks i) 0 m2) := by
          apply (headed.mono Set.subset_union_left).trans
          apply carved.mono
          rintro a (sentinel | rest)
          · exact .inr sentinel
          · obtain ⟨low', high'⟩ := Set.mem_Ico.mp rest
            exact .inl (inside (Set.mem_Ico.mpr ⟨(Nat.le_add_right _ 12).trans low', high'⟩))
        have result : growArena h mblock i fresh =
            (true, addArena (setPages h pages (splitArena (page * 4096) (classBlocks i) 0 m2)) page i) := by
          have index : page * 4096 / PG_SIZE = page := Nat.mul_div_cancel _ (by decide)
          have clear' : memset (remap h.pages pages h.mem fresh) (page * 4096) 0 PG_SIZE = m1 := clear
          simp only [growArena, if_pos none, ran, if_neg some, clear', blocks.2, head, number, index]
        rw [result]
        exact .joined page pages _ empty unclaimed (core.join small empty ⟨heap, unclaimed⟩ wires whole list
          ⟨header.1.trans pointer, header.2.1.trans count, header.2.2.trans kind⟩ owned) whole
  · have some : ¬ listEmpty h.mem (freeList (descAt mblock i)) = true := fun none => empty (emptiness.mp none)
    have result : growArena h mblock i fresh = (true, h) := by simp only [growArena, if_neg some]
    rw [result]
    exact .filled empty

/-! Whole pages. -/

theorem Core.reown {others' : List Nat} (core : Core mblock h live others free) (nodup : (heapPages h ++ others').Nodup)
    (wires : Wired h.pages (claimed h others') (claimed h others') ∅) : Core mblock h live others' free :=
  ⟨core.placed, wires, nodup, core.classes, core.counts, core.descs, core.lists, core.members, core.headers, core.larges⟩

theorem range_fresh {page n : Nat} (free_ : ∀ q ∈ pagesFrom page n, InHeap q ∧ q ∉ claimed h others) {q : Nat}
    (member : q ∈ List.range' page n) : q ∉ heapPages h ++ others :=
  (free_ q (List.mem_range'_1.mp member)).2

/-- The pages of a large allocation join. -/
theorem Core.extend {page n : Nat} (core : Core mblock h live others free) (positive : 0 < n)
    (free_ : ∀ q ∈ pagesFrom page n, InHeap q ∧ q ∉ claimed h others)
    (wires : Wired pages (claimed h others ∪ pagesFrom page n) (claimed h others ∪ pagesFrom page n) ∅)
    (changes : ChangesOnly (Unclaimed h others) h.mem m)
    (header : cnt m (page * 4096) = n ∧ isPageCnt m (page * 4096) = true) :
    Core mblock (addLarge (setPages h pages m) page n) live others free := by
  have kept := core.remem changes fun a own => core.own_claimed (core.heapBytes_bookkeeping own)
  have perm : (heapPages (addLarge (setPages h pages m) page n) ++ others).Perm
      (List.range' page n ++ (heapPages h ++ others)) := by
    have swap := List.perm_append_comm_assoc (h.arenas.map Prod.fst) (List.range' page n)
      ((h.large.flatMap fun r => List.range' r.1 r.2) ++ others)
    simpa [heapPages, addLarge, setPages, List.flatMap_cons, List.append_assoc] using swap
  have more : claimed (addLarge (setPages h pages m) page n) others ⊆ claimed h others ∪ pagesFrom page n := by
    intro q member
    rcases List.mem_append.mp (perm.mem_iff.mp member) with new | old
    · exact .inr (List.mem_range'_1.mp new)
    · exact .inl old
  refine ⟨core.placed, wires.weaken more more subset_rfl, ?_, core.classes, ?_, kept.descs, kept.lists, kept.members,
    kept.headers, ?_⟩
  · rw [perm.nodup_iff, List.nodup_append']
    exact ⟨List.nodup_range', core.nodup, fun q new old => range_fresh free_ new old⟩
  · intro q k member
    rcases List.mem_cons.mp member with new | old
    · cases new
      exact positive
    · exact core.counts q k old
  · intro q k member
    rcases List.mem_cons.mp member with new | old
    · cases new
      exact header
    · exact kept.larges q k old

theorem Core.large_disjoint {page n page' n' q : Nat} (core : Core mblock h live others free)
    (first : (page, n) ∈ h.large) (second : (page', n') ∈ h.large) (different : page' ≠ page)
    (inside : q ∈ pagesFrom page n) : q ∉ pagesFrom page' n' := by
  intro inside'
  have distinct := (List.nodup_append.mp (List.nodup_append.mp core.nodup).1).2.1
  have apart := (List.nodup_flatMap.mp distinct).2
  have symmetric : Std.Symm (Function.onFun List.Disjoint fun r : Nat × Nat => List.range' r.1 r.2) :=
    ⟨fun _ _ disjoint => disjoint.symm⟩
  have other : (page, n) ≠ (page', n') := fun same => different (congrArg Prod.fst same).symm
  exact apart.forall first second other (List.mem_range'_1.mpr inside) (List.mem_range'_1.mpr inside')

/-- The pages of a large allocation are released. -/
theorem Core.shrink {page n : Nat} (core : Core mblock h live others free) (member : (page, n) ∈ h.large) :
    ∃ pages, pageRelease h.pages (page * 4096) n = some pages ∧
      Core mblock (removeLarge (setPages h pages h.mem) page) live others free := by
  have whole : pagesFrom page n ⊆ claimed h others := fun q inside => List.mem_append_left _ (large_page member inside)
  obtain ⟨pages, released, wires, -, -⟩ := pageRelease_wired core.wiring whole whole
  refine ⟨pages, released, ?_⟩
  have sub : (heapPages (removeLarge (setPages h pages h.mem) page) ++ others).Sublist (heapPages h ++ others) := by
    apply List.Sublist.append_right
    apply List.Sublist.append_left
    exact List.filter_sublist.flatMap _
  have fewer : claimed (removeLarge (setPages h pages h.mem) page) others ⊆ claimed h others \ pagesFrom page n := by
    intro q inside
    refine ⟨sub.subset inside, ?_⟩
    intro gone
    have distinct := List.nodup_append.mp core.nodup
    have mine : q ∈ h.large.flatMap fun r => List.range' r.1 r.2 :=
      List.mem_flatMap.mpr ⟨(page, n), member, List.mem_range'_1.mpr gone⟩
    rcases List.mem_append.mp inside with own | other
    · rcases List.mem_append.mp own with small | big
      · exact (List.nodup_append.mp distinct.1).2.2 q small q mine rfl
      · obtain ⟨⟨page', n'⟩, left, within⟩ := List.mem_flatMap.mp big
        obtain ⟨before, different⟩ := List.mem_filter.mp left
        exact core.large_disjoint member before (of_decide_eq_true different) gone (List.mem_range'_1.mp within)
    · exact distinct.2.2 q (List.mem_append_right _ mine) q other rfl
  refine ⟨core.placed, wires.weaken fewer fewer subset_rfl, core.nodup.sublist sub, core.classes, ?_, core.descs,
    core.lists, core.members, core.headers, ?_⟩
  · exact fun q k left => core.counts q k (List.mem_filter.mp left).1
  · exact fun q k left => core.larges q k (List.mem_filter.mp left).1

end KOS.HeapLayout
