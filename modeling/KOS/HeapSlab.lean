import KOS.HeapRoom

/-! Runs that ask for at most 1024 bytes at a time: the bookkeeping of the blocks, as the code's
own functions see it. -/

namespace KOS.HeapRun
open KOS.ByteMemory KOS.LinkMemory KOS.DoublyLinked KOS.KernelList KOS.Paging KOS.PageWiring KOS.PageCalls KOS.Heap
  KOS.HeapLayout KOS.Machine NodeStore

variable {mblock limit : Nat} {s s' s₀ : Sys} {free : Nat → List Nat}

/-- The bytes of a block; its header tells the size. -/
def blockBytes (m : Memory) (b : Nat) : Set Nat := Set.Ico b (b + blockSize m (pMemBlock m (block2arena b)))

/-- `free` are the blocks on the free lists. -/
structure Slab (mblock : Nat) (s : Sys) (free : Nat → List Nat) : Prop where
  linked : ∀ i < MEM_BLOCK_CNT, Holds s.heap.mem (freeList (descAt mblock i)) (free i) ∧ (free i).Nodup
  only : ∀ i < MEM_BLOCK_CNT, ∀ x ∈ free i, ∃ page idx, (page, i) ∈ s.heap.arenas ∧
    idx < blocksPerArena s.heap.mem (descAt mblock i) ∧ x = arena2block s.heap.mem (page * PG_SIZE) idx
  either : ∀ page i idx, (page, i) ∈ s.heap.arenas → idx < blocksPerArena s.heap.mem (descAt mblock i) →
    (arena2block s.heap.mem (page * PG_SIZE) idx ∈ free i ↔ arena2block s.heap.mem (page * PG_SIZE) idx ∉ held s)
  counts : ∀ page i, (page, i) ∈ s.heap.arenas → i < MEM_BLOCK_CNT ∧
    pMemBlock s.heap.mem (page * PG_SIZE) = descAt mblock i ∧ cnt s.heap.mem (page * PG_SIZE) =
      ((Finset.range (blocksPerArena s.heap.mem (descAt mblock i))).filter fun idx =>
        arena2block s.heap.mem (page * PG_SIZE) idx ∈ free i).card
  pages : (s.heap.arenas.map Prod.fst).Nodup
  live : ∀ b ∈ s.live, ∃ page i idx, (page, i) ∈ s.heap.arenas ∧ idx < blocksPerArena s.heap.mem (descAt mblock i) ∧
    b.1 = arena2block s.heap.mem (page * PG_SIZE) idx ∧ block2arena b.1 = page * PG_SIZE ∧
    b.2 ≤ blockSize s.heap.mem (descAt mblock i) ∧ page * PG_SIZE + ARENA_SIZE ≤ b.1 ∧
    b.1 + blockSize s.heap.mem (descAt mblock i) ≤ page * PG_SIZE + PG_SIZE
  apart : s.live.Pairwise fun b c => Disjoint (blockBytes s.heap.mem b.1) (blockBytes s.heap.mem c.1)
  used : ∀ page, (∃ i, (page, i) ∈ s.heap.arenas) ↔ ∃ b ∈ s.live, block2arena b.1 = page * PG_SIZE

/-- No small size makes a large piece. -/
theorem Inv.no_large {e : Event} (inv : Inv mblock s) (none : s.heap.large = []) (permitted : Permitted mblock 1024 s e)
    (moved : HeapRun.step mblock s e = some s') : s'.heap.large = [] := by
  cases e with
  | malloc size fresh =>
    have outcome := inv.sysMalloc fresh (permitted.1.trans (by decide)) permitted.2
    simp only [HeapRun.step] at moved
    generalize Heap.sysMalloc s.heap mblock size fresh = result at outcome moved
    cases outcome with
    | failed h _ _ _ large =>
      rw [if_pos rfl] at moved
      cases moved
      exact large.trans none
    | granted p h some _ _ _ _ _ _ _ _ _ part =>
      rw [if_neg some] at moved
      cases moved
      exact (part permitted.1).1.trans none
  | free p =>
    obtain ⟨h, released, freed⟩ := inv.sysFree permitted
    simp only [HeapRun.step, released, Option.map_some, Option.some.injEq] at moved
    subst moved
    have fewer := freed.large
    rw [none] at fewer
    exact List.subset_nil.mp fewer
  | write p offset v =>
    cases moved
    exact none
  | pageMalloc vaddr pgCnt fresh =>
    simp only [HeapRun.step, Option.some.injEq] at moved
    subst moved
    split_ifs <;> exact none
  | pageFree vaddr pgCnt =>
    obtain ⟨pages, -, rfl⟩ := Option.map_eq_some_iff.mp moved
    exact none

theorem Inv.slab (inv : Inv mblock s) (none : s.heap.large = []) : ∃ free, Slab mblock s free := by
  obtain ⟨free, core⟩ := inv.core
  have class_ : ∀ {page i}, (page, i) ∈ s.heap.arenas → blocksPerArena s.heap.mem (descAt mblock i) = classBlocks i ∧
      blockSize s.heap.mem (descAt mblock i) = classSize i := fun arena => (core.descs _ (core.classes _ _ arena)).symm
  have block : ∀ b ∈ s.live, ∃ i, IsBlock s.heap.arenas i b.1 ∧ b.2 ≤ classSize i := by
    intro b member
    rcases inv.placed b member with small | ⟨page, n, large, -⟩
    · exact small
    · rw [none] at large
      exact absurd large List.not_mem_nil
  have arena_ : ∀ {i x}, IsBlock s.heap.arenas i x → block2arena x = x / 4096 * 4096 := by
    intro i x inside
    obtain ⟨heap, -, room⟩ := core.block_place inside
    have below := heap.2
    exact block2arena_eq x (by omega)
  have bytes : ∀ {i x}, IsBlock s.heap.arenas i x → blockBytes s.heap.mem x = Set.Ico x (x + classSize i) := by
    intro i x inside
    have arena := inside.place.1
    rw [blockBytes, arena_ inside, show x / 4096 * 4096 = x / 4096 * PG_SIZE from rfl, (core.headers _ i arena).1,
      (class_ arena).2]
  refine ⟨free, fun i small => ⟨core.lists i small, holds_nodup (core.lists i small)⟩, ?_, ?_, ?_, ?_, ?_, ?_, ?_⟩
  · intro i small x member
    obtain ⟨⟨page, idx, arena, inside, rfl⟩, -⟩ := (core.members i small x).mp member
    exact ⟨page, idx, arena, (class_ arena).1 ▸ inside, (core.block_address arena inside).symm⟩
  · intro page i idx arena inside
    rw [(class_ arena).1] at inside
    rw [core.block_address arena inside, core.members i (core.classes page i arena)]
    exact and_iff_right ⟨page, idx, arena, inside, rfl⟩
  · intro page i arena
    obtain ⟨pointer, count, -⟩ := core.headers page i arena
    refine ⟨core.classes page i arena, pointer, ?_⟩
    rw [count, (class_ arena).1, freeCount]
    congr 1
    apply Finset.filter_congr
    intro idx inside
    have below := Finset.mem_range.mp inside
    rw [core.block_address arena below, core.members i (core.classes page i arena)]
    exact (and_iff_right ⟨page, idx, arena, below, rfl⟩).symm
  · exact (List.nodup_append.mp (List.nodup_append.mp core.nodup).1).1
  · intro b member
    obtain ⟨i, inside, room⟩ := block b member
    have place := arena_ inside
    obtain ⟨page, idx, arena, below, at_⟩ := inside
    have bounds := blockAt_bounds page below
    have positive := classSize_ge i
    refine ⟨page, i, idx, arena, ?_⟩
    rw [(class_ arena).1, (class_ arena).2, core.block_address arena below, place, at_]
    unfold PG_SIZE ARENA_SIZE
    exact ⟨below, rfl, by omega, room, bounds.1, bounds.2⟩
  · have distinct := inv.nodup
    rw [held, List.Nodup, List.pairwise_map] at distinct
    apply distinct.imp_of_mem
    intro b c first second different
    obtain ⟨i, inside, -⟩ := block b first
    obtain ⟨j, inside', -⟩ := block c second
    rw [bytes inside, bytes inside', Set.disjoint_left]
    rintro a ⟨low, high⟩ ⟨low', high'⟩
    have gap := core.block_gap inside inside' different
    omega
  · intro page
    constructor
    · rintro ⟨i, arena⟩
      obtain ⟨idx, inside, live⟩ := inv.used page i arena
      obtain ⟨b, member, at_⟩ := List.mem_map.mp live
      refine ⟨b, member, ?_⟩
      have bounds := blockAt_bounds page inside
      have positive := classSize_ge i
      rw [at_, arena_ ⟨page, idx, arena, inside, rfl⟩]
      unfold PG_SIZE
      omega
    · rintro ⟨b, member, at_⟩
      obtain ⟨i, inside, -⟩ := block b member
      rw [arena_ inside] at at_
      have same : b.1 / 4096 = page := Nat.eq_of_mul_eq_mul_right (by decide) at_
      exact ⟨i, same ▸ inside.place.1⟩

/-- In every run with sizes up to 1024. -/
theorem reach_slab (start : Start mblock s₀) (run : Reach (step mblock) (Permitted mblock 1024) s₀ s) :
    ∃ free, Slab mblock s free := by
  have kept : ∀ (before : Sys) e after, Inv mblock before ∧ before.heap.large = [] → Permitted mblock 1024 before e →
      step mblock before e = some after → Inv mblock after ∧ after.heap.large = [] :=
    fun before e after inv permitted moved =>
      ⟨inv.1.step (by decide) permitted moved, inv.1.no_large inv.2 permitted moved⟩
  obtain ⟨-, k, m, -, rfl⟩ := id start
  obtain ⟨inv, none⟩ := Reach.invariant kept ⟨start.inv, rfl⟩ run
  exact inv.slab none

theorem twoClasses_slab :
    ∃ s, Reach (step kMemBlock) (Permitted kMemBlock 1024) booted s ∧ s.live.map Prod.snd = [16, 512] ∧
      ∃ free, Slab kMemBlock s free := by
  obtain ⟨s, p, q, run, live, -⟩ := HeapRoom.booted_twoClasses 1024 (by decide)
  exact ⟨s, run, by rw [live]; rfl, reach_slab booted_start run⟩

end KOS.HeapRun
