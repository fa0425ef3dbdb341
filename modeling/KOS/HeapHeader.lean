import KOS.HeapClients

/-! The reads of the arena header that `sys_free` makes, from the one that tells a block from a
large piece to the one that finds the mutex to unlock. -/

namespace KOS.HeapRun
open KOS.ByteMemory KOS.LinkMemory KOS.DoublyLinked KOS.KernelList KOS.Paging KOS.PageWiring KOS.PageCalls KOS.Heap
  KOS.HeapLayout KOS.Machine NodeStore

variable {mblock : Nat} {s s₀ : Sys}

/-- The loop that unlinks an arena reads the header for its bound, and for the block. -/
def unlinkReads (a : Nat) : (left idx : Nat) → HeapState → List HeapState
  | 0, _, h => [h]
  | left + 1, idx, h => h :: h :: unlinkReads a left (idx + 1) (setMem h (listRemove h.mem (arena2block h.mem a idx)))

/-- `mem_release` reads the header for the list, to count, and to compare. -/
def releaseReads (h : HeapState) (vaddr : Nat) : List HeapState :=
  let a := block2arena vaddr
  let counted := giveBlock h vaddr
  let n := blocksPerArena counted.mem (pMemBlock counted.mem a)
  h :: setMem h (listAppend h.mem (freeList (pMemBlock h.mem a)) vaddr) :: counted ::
    if cnt counted.mem a = n then unlinkReads a n 0 counted else []

/-- The states in which `sys_free` reads the header, in order. The last read of a block's header
is the one for `mutex_unlock`. -/
def headerReads (h : HeapState) (vaddr : Nat) : Option (List HeapState) :=
  if isPageCnt h.mem (block2arena vaddr) then some [h, h]
  else (memRelease h vaddr).map fun h' => h :: h :: releaseReads h vaddr ++ [h']

/-- Every read finds the page mapped and owned by the heap, and the same mutex. -/
def HeaderStays (h : HeapState) (vaddr : Nat) : Prop :=
  ∃ reads, headerReads h vaddr = some reads ∧ ∀ g ∈ reads, present (g.pages.pte (vaddr / PG_SIZE)) = true ∧
    vaddr / PG_SIZE ∈ heapPages g ∧ pMemBlock g.mem (block2arena vaddr) = pMemBlock h.mem (block2arena vaddr)

theorem Core.present {h : HeapState} {live others : List Nat} {free : Nat → List Nat} {page : Nat}
    (core : Core mblock h live others free) (member : page ∈ heapPages h) : present (h.pages.pte page) = true := by
  obtain ⟨-, paddr, taken, pte⟩ := core.backed member
  rw [pte]
  exact entry_present (taken.aligned core.wiring.sized).1

/-- With another live block in the arena, the header stays where it is. -/
theorem Core.header_stays {h : HeapState} {live live' others : List Nat} {free : Nat → List Nat} {i b idx : Nat}
    (core : Core mblock h live others free) (block : IsBlock h.arenas i b) (used : b ∈ live)
    (without : ∀ x, x ∈ live' ↔ x ≠ b ∧ x ∈ live) (inside : idx < classBlocks i)
    (other : blockAt (b / 4096) i idx ∈ live') : HeaderStays h b := by
  have arena := block.place.1
  have heap := core.arena_heap arena
  have below := heap.2
  have own : b / 4096 ∈ heapPages h := List.mem_append_left _ (List.mem_map_of_mem (f := Prod.fst) arena)
  have mapped := Core.present core own
  have header : block2arena b = b / 4096 * 4096 := block2arena_eq b (by omega)
  have kind : isPageCnt h.mem (b / 4096 * 4096) = false := (core.headers _ i arena).2.2
  have pointer : pMemBlock h.mem (b / 4096 * 4096) = descAt mblock i := (core.headers _ i arena).1
  obtain ⟨m, gave, core', -⟩ := core.give (core.classes _ i arena) block used without
  have pointer' : pMemBlock m (b / 4096 * 4096) = descAt mblock i := (core'.headers _ i arena).1
  have open_ : cnt (setMem h m).mem (b / 4096 * 4096) ≠ _ := core'.not_full arena inside other
  have released : memRelease h b = some (setMem h m) := by
    rw [memRelease, gave, header]
    exact core'.stay arena inside other
  -- The count is written next to the pointer, so the pointer is already there before that.
  have between : pMemBlock (listAppend h.mem (freeList (pMemBlock h.mem (block2arena b))) b) (b / 4096 * 4096) = descAt mblock i := by
    rw [← pointer', ← show (giveBlock h b).mem = m from congrArg HeapState.mem gave]
    symm
    have word := setCnt_changes (listAppend h.mem (freeList (pMemBlock h.mem (block2arena b))) b) (a := b / 4096 * 4096)
      (cnt (listAppend h.mem (freeList (pMemBlock h.mem (block2arena b))) b) (b / 4096 * 4096) + 1) (by omega)
    unfold giveBlock
    rw [header] at word ⊢
    apply word.load32 (by omega)
    rintro x ⟨low, high⟩ ⟨low', high'⟩
    omega
  refine ⟨[h, h, h, setMem h (listAppend h.mem (freeList (pMemBlock h.mem (block2arena b))) b), setMem h m, setMem h m], ?_, ?_⟩
  · rw [headerReads, header, kind, released, releaseReads, gave, header, if_neg open_]
    rfl
  · intro g read
    have rest : g.pages = h.pages ∧ g.arenas = h.arenas ∧ g.large = h.large ∧
        pMemBlock g.mem (b / 4096 * 4096) = descAt mblock i := by
      simp only [List.mem_cons, List.not_mem_nil, or_false] at read
      rcases read with rfl | rfl | rfl | rfl | rfl | rfl
      · exact ⟨rfl, rfl, rfl, pointer⟩
      · exact ⟨rfl, rfl, rfl, pointer⟩
      · exact ⟨rfl, rfl, rfl, pointer⟩
      · exact ⟨rfl, rfl, rfl, between⟩
      · exact ⟨rfl, rfl, rfl, pointer'⟩
      · exact ⟨rfl, rfl, rfl, pointer'⟩
    obtain ⟨pages, arenas, large, word⟩ := rest
    rw [pages, heapPages, arenas, large, header, word, pointer]
    exact ⟨mapped, own, rfl⟩

/-- Freeing the last live block of an arena, the last read finds no page. -/
theorem Core.header_goes {h : HeapState} {live live' others : List Nat} {free : Nat → List Nat} {i b : Nat}
    (core : Core mblock h live others free) (block : IsBlock h.arenas i b) (used : b ∈ live)
    (without : ∀ x, x ∈ live' ↔ x ≠ b ∧ x ∈ live) (dead : ∀ idx < classBlocks i, blockAt (b / 4096) i idx ∉ live') :
    ¬ HeaderStays h b := by
  have arena := block.place.1
  have below := (core.arena_heap arena).2
  have header : block2arena b = b / 4096 * 4096 := block2arena_eq b (by omega)
  have kind : isPageCnt h.mem (b / 4096 * 4096) = false := (core.headers _ i arena).2.2
  obtain ⟨h', released, -, -, -, outcome⟩ := core.memRelease block used without
  rintro ⟨reads, ran, stays⟩
  rw [headerReads, header, kind, released] at ran
  cases ran
  have last := (stays h' (List.mem_append_right _ (List.mem_singleton_self h'))).1
  rcases outcome with ⟨⟨idx, inside, other⟩, -⟩ | ⟨-, -, gone⟩
  · exact dead idx inside other
  · exact absurd (gone.symm.trans last) Bool.false_ne_true

theorem Inv.headerStays_iff {p : Nat} (inv : Inv mblock s) (live : p ∈ held s) :
    HeaderStays s.heap p ↔ isPageCnt s.heap.mem (block2arena p) = true ∨
      ∃ q ∈ held s, q ≠ p ∧ block2arena q = block2arena p := by
  obtain ⟨free, core⟩ := inv.core
  have own := inv.owned p live
  have mapped := Core.present core own
  obtain ⟨b, member, rfl⟩ := List.mem_map.mp live
  rcases inv.placed b member with ⟨i, block, -⟩ | ⟨page, n, large, at_, -⟩
  · have arena := block.place.1
    have below := (core.arena_heap arena).2
    have header : block2arena b.1 = b.1 / 4096 * 4096 := block2arena_eq _ (by omega)
    have kind : isPageCnt s.heap.mem (b.1 / 4096 * 4096) = false := (core.headers _ i arena).2.2
    by_cases more : ∃ idx < classBlocks i, blockAt (b.1 / 4096) i idx ∈ held (letGo s b.1)
    · obtain ⟨idx, inside, other⟩ := more
      obtain ⟨different, used⟩ := mem_letGo.mp other
      have bounds := blockAt_bounds (b.1 / 4096) inside
      have positive := classSize_ge i
      apply iff_of_true (Core.header_stays core block live (fun _ => mem_letGo) inside other)
      refine .inr ⟨_, used, different, ?_⟩
      rw [header, block2arena_eq _ (by omega)]
      omega
    · have dead : ∀ idx < classBlocks i, blockAt (b.1 / 4096) i idx ∉ held (letGo s b.1) :=
        fun idx inside other => more ⟨idx, inside, other⟩
      apply iff_of_false (Core.header_goes core block live (fun _ => mem_letGo) dead)
      rintro (large | ⟨q, used, different, same⟩)
      · rw [header, kind] at large
        exact absurd large Bool.false_ne_true
      · obtain ⟨c, member', rfl⟩ := List.mem_map.mp used
        have bound : c.1 / 4096 ∈ heapPages s.heap := inv.owned _ used
        have below' := (core.wiring.heap _ (List.mem_append_left _ bound)).2
        rw [header, block2arena_eq _ (by omega)] at same
        have page : c.1 / 4096 = b.1 / 4096 := Nat.eq_of_mul_eq_mul_right (by decide) same
        rcases inv.placed c member' with ⟨j, ⟨page', idx, arena', inside, at_⟩, -⟩ | ⟨page', n, large, at_, -⟩
        · have bounds := blockAt_bounds page' inside
          have positive := classSize_ge j
          have index : page' = b.1 / 4096 := by omega
          subst index
          have class_ := core.class_unique arena' arena
          subst class_
          exact dead idx inside (mem_letGo.mpr ⟨at_ ▸ different, at_ ▸ used⟩)
        · have index : b.1 / 4096 = page' := by omega
          exact core.arena_apart_large arena large (index ▸ ⟨le_rfl, by have := core.counts page' n large; omega⟩)
  · have below := (core.large_heap large).2
    have header : block2arena b.1 = page * 4096 := by
      rw [block2arena_eq _ (by omega)]
      omega
    have kind : isPageCnt s.heap.mem (page * 4096) = true := (core.larges page n large).2
    rw [header]
    apply iff_of_true _ (.inl kind)
    refine ⟨[s.heap, s.heap], by rw [headerReads, header, if_pos kind], ?_⟩
    intro g read
    have same : g = s.heap := by simpa using read
    rw [same]
    exact ⟨mapped, own, rfl⟩

/-- In every run: the header stays for a large piece, and for a block that is not the last live
one of its arena. -/
theorem reach_headerStays_iff {p : Nat} (start : Start mblock s₀)
    (run : Reach (step mblock) (Permitted mblock MAX_SIZE) s₀ s) (live : p ∈ held s) :
    HeaderStays s.heap p ↔ isPageCnt s.heap.mem (block2arena p) = true ∨
      ∃ q ∈ held s, q ≠ p ∧ block2arena q = block2arena p :=
  (reach_inv le_rfl start run).headerStays_iff live

theorem firstBlock_headerStays_iff : ∃ p, held firstBlock = [p] ∧
    (HeaderStays firstBlock.heap p ↔ isPageCnt firstBlock.heap.mem (block2arena p) = true ∨
      ∃ q ∈ held firstBlock, q ≠ p ∧ block2arena q = block2arena p) := by
  obtain ⟨page, idx, -, -, only⟩ := firstBlock_place
  refine ⟨_, only, ?_⟩
  apply reach_headerStays_iff booted_start firstBlock_reach
  rw [only]
  exact List.mem_cons_self

/-- The client frees the only block of the heap. -/
theorem only_block_headerGoes :
    Reach (step kMemBlock) (Permitted kMemBlock MAX_SIZE) booted firstBlock ∧
      ∃ p, held firstBlock = [p] ∧ ¬ HeaderStays firstBlock.heap p := by
  refine ⟨firstBlock_reach, ?_⟩
  have inv := reach_inv le_rfl booted_start firstBlock_reach
  obtain ⟨free, core⟩ := inv.core
  obtain ⟨page, idx, arena, inside, only⟩ := firstBlock_place
  have live : blockAt page 0 idx ∈ held firstBlock := by
    rw [only]
    exact List.mem_cons_self
  have bounds := blockAt_bounds page inside
  have below := (core.arena_heap arena).2
  have positive := classSize_ge 0
  have header : block2arena (blockAt page 0 idx) = page * 4096 := by
    rw [block2arena_eq _ (by omega)]
    omega
  refine ⟨_, only, ?_⟩
  rw [inv.headerStays_iff live, header]
  rintro (large | ⟨q, used, different, -⟩)
  · exact absurd ((core.headers page 0 arena).2.2.symm.trans large) Bool.false_ne_true
  · rw [only, List.mem_singleton] at used
    exact different used

end KOS.HeapRun
