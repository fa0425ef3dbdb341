import KOS.HeapRun

/-! What clients may rely on: the bytes of a pointer are theirs alone, and lie where `sys_malloc`
says. -/

namespace KOS.HeapRun
open KOS.ByteMemory KOS.LinkMemory KOS.DoublyLinked KOS.KernelList KOS.Paging KOS.PageWiring KOS.PageCalls KOS.Heap
  KOS.HeapLayout KOS.Machine NodeStore

variable {mblock limit : Nat} {s s' s₀ : Sys}

/-- What a step does to the bytes of the clients and to those of the heap itself. -/
structure Isolated (mblock : Nat) (s : Sys) (e : Event) (s' : Sys) : Prop where
  room : ∀ b ∈ s'.live, Set.Ico b.1 (b.1 + b.2) ⊆ Extent s'.heap b.1
  zero : ∀ size fresh, e = .malloc size fresh → (sysMalloc s.heap mblock size fresh).1 ≠ 0 →
    ((sysMalloc s.heap mblock size fresh).1, size) ∈ s'.live ∧
      ∀ a ∈ Extent s'.heap (sysMalloc s.heap mblock size fresh).1, s'.heap.mem a = 0
  kept : ∀ b ∈ s.live, b ∈ s'.live → ∀ a ∈ Extent s.heap b.1, s'.heap.mem a ≠ s.heap.mem a →
    ∃ offset v, e = .write b.1 offset v ∧ a = b.1 + offset
  own : ∀ p offset v, e = .write p offset v → s'.heap.pages = s.heap.pages ∧
    ∀ a ∈ Bookkeeping s.heap (held s), s'.heap.mem a = s.heap.mem a

theorem Inv.room (inv : Inv mblock s) : ∀ b ∈ s.live, Set.Ico b.1 (b.1 + b.2) ⊆ Extent s.heap b.1 := by
  rintro b member a ⟨low, high⟩
  exact (inv.placed b member).extent low high

/-- What belongs to different pointers is apart. -/
theorem Inv.extents_apart {p q a : Nat} (inv : Inv mblock s) (first : p ∈ held s) (second : q ∈ held s)
    (different : p ≠ q) (inside : a ∈ Extent s.heap p) : a ∉ Extent s.heap q := by
  obtain ⟨free, core⟩ := inv.core
  rintro (⟨i, block, within⟩ | ⟨page, n, member, rfl, within⟩)
  · exact core.extent_block block different inside within
  · obtain ⟨low, high⟩ := Set.mem_Ico.mp within
    rcases inside with ⟨i, block, within'⟩ | ⟨page', n', member', rfl, within'⟩
    · obtain ⟨arena, -, room⟩ := block.place
      obtain ⟨low', high'⟩ := Set.mem_Ico.mp within'
      exact core.arena_apart_large arena member ⟨by omega, by omega⟩
    · obtain ⟨low', high'⟩ := Set.mem_Ico.mp within'
      have other : page' ≠ page := fun same => different (by rw [same])
      have here : a / 4096 ∈ pagesFrom page n := ⟨by omega, by omega⟩
      exact core.large_disjoint member member' other here ⟨by omega, by omega⟩

theorem Inv.isolated {e : Event} (inv : Inv mblock s) (small : limit ≤ MAX_SIZE) (permitted : Permitted mblock limit s e)
    (moved : HeapRun.step mblock s e = some s') : Isolated mblock s e s' := by
  have inv' := inv.step small permitted moved
  refine ⟨inv'.room, ?_, ?_, ?_⟩
  · rintro size fresh rfl some
    have outcome := inv.sysMalloc fresh (permitted.1.trans small) permitted.2
    simp only [HeapRun.step, if_neg some, Option.some.injEq] at moved
    subst moved
    generalize Heap.sysMalloc s.heap mblock size fresh = result at outcome some ⊢
    cases outcome with
    | failed => exact absurd rfl some
    | granted p h _ _ _ _ _ _ _ zero => exact ⟨List.mem_cons_self, zero⟩
  · intro b live live' a inside changed
    have used : b.1 ∈ held s := List.mem_map_of_mem live
    obtain ⟨free, core⟩ := inv.core
    cases e with
    | malloc size fresh =>
      have outcome := inv.sysMalloc fresh (permitted.1.trans small) permitted.2
      simp only [HeapRun.step] at moved
      generalize Heap.sysMalloc s.heap mblock size fresh = result at outcome moved
      cases outcome with
      | failed h _ _ _ _ kept =>
        rw [if_pos rfl] at moved
        cases moved
        exact absurd (kept b.1 used a inside) changed
      | granted p h some _ _ _ _ _ _ _ kept =>
        rw [if_neg some] at moved
        cases moved
        exact absurd (kept b.1 used a inside) changed
    | free p =>
      obtain ⟨h, released, freed⟩ := inv.sysFree permitted
      simp only [HeapRun.step, released, Option.map_some, Option.some.injEq] at moved
      subst moved
      exact absurd (freed.kept b.1 (List.mem_map_of_mem live') a inside) changed
    | write p offset v =>
      cases moved
      obtain ⟨c, member, rfl, within⟩ := permitted
      have target : c.1 + offset ∈ Extent s.heap c.1 := (inv.placed c member).extent (Nat.le_add_right _ _) (by omega)
      have below := (core.extent_heap target).2
      have here : a = c.1 + offset := by
        by_contra elsewhere
        exact changed (store_changes s.heap.mem v (show c.1 + offset < 2 ^ 32 by omega) a elsewhere)
      have same : b.1 = c.1 := by
        by_contra different
        exact inv.extents_apart used (List.mem_map_of_mem member) different inside (here ▸ target)
      exact ⟨offset, v, by rw [same], by rw [same, here]⟩
    | pageMalloc vaddr pgCnt fresh =>
      cases ran : pageAcquire s.heap.pages vaddr pgCnt with
      | mk start pages =>
        obtain ⟨changes, -⟩ := core.acquire fresh permitted ran
        simp only [HeapRun.step, ran, Option.some.injEq] at moved
        subst moved
        have kept := changes a (core.extent_unclaimed inside)
        split_ifs at changed <;> exact absurd kept changed
    | pageFree vaddr pgCnt =>
      obtain ⟨pages, -, rfl⟩ := Option.map_eq_some_iff.mp moved
      exact absurd rfl changed
  · rintro p offset v rfl
    cases moved
    obtain ⟨free, core⟩ := inv.core
    obtain ⟨c, member, rfl, within⟩ := permitted
    have target : c.1 + offset ∈ Extent s.heap c.1 := (inv.placed c member).extent (Nat.le_add_right _ _) (by omega)
    have below := (core.extent_heap target).2
    refine ⟨rfl, ?_⟩
    intro a own
    apply store_changes s.heap.mem v (show c.1 + offset < 2 ^ 32 by omega) a
    rintro rfl
    exact core.extent_own (List.mem_map_of_mem member) target own

/-- In every run with sizes up to 2 GiB, whatever the step. -/
theorem reach_isolated {e : Event} (start : Start mblock s₀) (run : Reach (step mblock) (Permitted mblock (2 ^ 31)) s₀ s)
    (permitted : Permitted mblock (2 ^ 31) s e) (moved : step mblock s e = some s') : Isolated mblock s e s' := by
  have small : 2 ^ 31 ≤ MAX_SIZE := by decide
  exact (reach_inv small start run).isolated small permitted moved

/-- The client writes one byte to the first of two large pieces. -/
def twoPieces : List Event := [.malloc 2000 fun _ => 0, .malloc 5000 fun _ => 1]

theorem twoPieces_plays : (play (step kMemBlock) (Permitted kMemBlock (2 ^ 31)) booted twoPieces).isSome := by
  decide +kernel

def pieces : Sys := (play (step kMemBlock) (Permitted kMemBlock (2 ^ 31)) booted twoPieces).get twoPieces_plays

theorem pieces_isolated :
    Isolated kMemBlock pieces (.write 0xC010000C 5 1) (setHeap pieces (setMem pieces.heap (store pieces.heap.mem 0xC0100011 1))) :=
  reach_isolated booted_start (reach_of_play (Option.some_get twoPieces_plays).symm) (by decide +kernel) rfl

/-! Where a new piece lies. -/

/-- `h` is the heap after `sys_malloc(size)` returned `p`. -/
structure Granted (mblock : Nat) (s : Sys) (size p : Nat) (h : HeapState) : Prop where
  fits : p + size ≤ 2 ^ 32
  backed : ∀ a ∈ Set.Ico p (p + size), a / 4096 ∈ heapPages h ∧ Backed h.pages (a / 4096)
  whole : 1024 < size → ∃ page, p = page * 4096 + 12 ∧ p + size ≤ (page + pageCnt size) * 4096 ∧
    cnt h.mem (page * 4096) = pageCnt size ∧ isPageCnt h.mem (page * 4096) = true ∧
      ∀ q ∈ pagesFrom page (pageCnt size), q ∉ claimed s.heap s.others ∧ Backed h.pages q
  part : size ≤ 1024 → Backed h.pages (p / 4096) ∧ 12 ≤ p % 4096 ∧ p % 4096 + size ≤ 4096 ∧
    if requested s.heap mblock size = none then p / 4096 ∈ heapPages s.heap else p / 4096 ∉ claimed s.heap s.others

theorem Inv.granted {size : Nat} {fresh : Memory} (inv : Inv mblock s) (limit : size ≤ MAX_SIZE)
    (request : ∀ n ∈ requested s.heap mblock size, Request s.heap.pages.vp 0 n)
    (some : (Heap.sysMalloc s.heap mblock size fresh).1 ≠ 0) :
    Granted mblock s size (Heap.sysMalloc s.heap mblock size fresh).1 (Heap.sysMalloc s.heap mblock size fresh).2 := by
  have outcome := inv.sysMalloc fresh limit request
  generalize Heap.sysMalloc s.heap mblock size fresh = result at outcome some ⊢
  cases outcome with
  | failed => exact absurd rfl some
  | granted p h _ core placed new arenas large used zero kept whole part =>
    obtain ⟨free, core⟩ := core
    have owned : ∀ a ∈ Set.Ico p (p + size), a / 4096 ∈ heapPages h := by
      rintro a ⟨low, high⟩
      exact extent_page (placed.extent low high)
    refine ⟨?_, fun a inside => ⟨owned a inside, core.backed (owned a inside)⟩, ?_, ?_⟩
    · show p + size ≤ 2 ^ 32
      by_cases nothing : size = 0
      · have heap := core.wiring.heap _ (List.mem_append_left _ (placed.page core.counts))
        have below := heap.2
        omega
      · have last := core.wiring.heap _ (List.mem_append_left _ (owned (p + size - 1) ⟨by omega, by omega⟩))
        have below := last.2
        omega
    · intro big
      obtain ⟨page, at_, member, new⟩ := whole big
      have covers := pageCnt_covers limit
      obtain ⟨count, kind⟩ := core.larges page _ member
      refine ⟨page, at_, ?_, count, kind, fun q inside => ⟨new q inside, core.backed (large_page member inside)⟩⟩
      show p + size ≤ (page + pageCnt size) * 4096
      omega
    · intro little
      obtain ⟨-, i, -, block, room, origin⟩ := part little
      obtain ⟨arena, low, high⟩ := block.place
      have page : p / 4096 ∈ heapPages h := List.mem_append_left _ (List.mem_map_of_mem (f := Prod.fst) arena)
      refine ⟨core.backed page, low, (Nat.add_le_add_left room _).trans high, ?_⟩
      rcases origin with ⟨none, same⟩ | ⟨one, new⟩
      · rw [if_pos none]
        rw [same] at arena
        exact List.mem_append_left _ (List.mem_map_of_mem (f := Prod.fst) arena)
      · rw [if_neg (by rw [one]; exact Option.some_ne_none 1)]
        exact new

theorem reach_granted {size : Nat} {fresh : Memory} (start : Start mblock s₀)
    (run : Reach (step mblock) (Permitted mblock MAX_SIZE) s₀ s) (limit : size ≤ MAX_SIZE)
    (request : ∀ n ∈ requested s.heap mblock size, Request s.heap.pages.vp 0 n)
    (some : (Heap.sysMalloc s.heap mblock size fresh).1 ≠ 0) :
    Granted mblock s size (Heap.sysMalloc s.heap mblock size fresh).1 (Heap.sysMalloc s.heap mblock size fresh).2 :=
  (reach_inv le_rfl start run).granted limit request some

/-- As for a piece of its own: every byte lies in a page that this call got. -/
def InOwnPages (s : Sys) (size p : Nat) (h : HeapState) : Prop :=
  p + size ≤ 2 ^ 32 ∧ ∀ a ∈ Set.Ico p (p + size), a / 4096 ∉ claimed s.heap s.others ∧ Backed h.pages (a / 4096)

theorem requested_small {h : HeapState} {size n : Nat} (little : size ≤ 1024) (asked : n ∈ requested h mblock size) :
    n = 1 := by
  unfold requested at asked
  rw [if_neg (by omega)] at asked
  split_ifs at asked
  · exact (Option.some.inj asked).symm
  · cases asked

/-- A block that is not live keeps its class from asking for a page. -/
theorem requested_none {free : Nat → List Nat} {size i b : Nat}
    (core : Core mblock s.heap (held s) s.others free) (little : size ≤ 1024)
    (class_ : findClass s.heap.mem mblock size MEM_BLOCK_CNT 0 = i) (small : i < MEM_BLOCK_CNT)
    (block : IsBlock s.heap.arenas i b) (dead : b ∉ held s) : requested s.heap mblock size = none := by
  have front : b ∈ free i := (core.members i small b).mpr ⟨block, dead⟩
  rw [requested, if_neg (by omega), class_, if_neg]
  intro none
  have empty := (listEmpty_iff (core.lists i small) not_apart_self).mp none
  rw [empty] at front
  exact absurd front List.not_mem_nil

theorem findClass_first {free : Nat → List Nat} (core : Core mblock s.heap (held s) s.others free) :
    findClass s.heap.mem mblock 16 MEM_BLOCK_CNT 0 = 0 := by
  have size := (core.descs 0 (by decide)).1
  rw [show MEM_BLOCK_CNT = 6 + 1 from rfl, findClass, size]
  rfl

/-- The state after a first block of 16 bytes. -/
def firstBlock : Sys :=
  hold (setHeap booted (sysMalloc booted.heap kMemBlock 16 fun _ => 0).2) (sysMalloc booted.heap kMemBlock 16 fun _ => 0).1 16

theorem booted_request {size n : Nat} (little : size ≤ 1024) (asked : n ∈ requested booted.heap kMemBlock size) :
    Request booted.heap.pages.vp 0 n := by
  rw [requested_small little asked]
  decide +kernel

theorem booted_acquires : (pageAcquire booted.heap.pages 0 1).1 ≠ 0 := by
  decide +kernel

/-- A small size is granted after boot. -/
theorem booted_some {size : Nat} (little : size ≤ 1024) : (sysMalloc booted.heap kMemBlock size fun _ => 0).1 ≠ 0 := by
  have outcome := booted_start.inv.sysMalloc (fun _ => 0) (show size ≤ MAX_SIZE from little.trans (by decide))
    (fun n asked => booted_request little asked)
  generalize sysMalloc booted.heap kMemBlock size (fun _ => 0) = result at outcome ⊢
  cases outcome with
  | failed h null =>
    obtain ⟨n, asked, null⟩ := null
    rw [requested_small little asked] at null
    exact absurd null booted_acquires
  | granted p h some => exact some

theorem step_malloc {size : Nat} {fresh : Memory} (some : (sysMalloc s.heap mblock size fresh).1 ≠ 0) :
    step mblock s (.malloc size fresh) =
      Option.some (hold (setHeap s (sysMalloc s.heap mblock size fresh).2) (sysMalloc s.heap mblock size fresh).1 size) := by
  simp only [step, if_neg some]

theorem firstBlock_reach : Reach (step kMemBlock) (Permitted kMemBlock MAX_SIZE) booted firstBlock :=
  Reach.cons (e := .malloc 16 fun _ => 0) ⟨by decide, fun _ asked => booted_request (by decide) asked⟩
    (step_malloc (booted_some (by decide))) (Reach.refl _)

theorem firstBlock_place : ∃ page idx, (page, 0) ∈ firstBlock.heap.arenas ∧ idx < classBlocks 0 ∧
    held firstBlock = [blockAt page 0 idx] := by
  obtain ⟨free, core⟩ := booted_start.inv.core
  have outcome := booted_start.inv.sysMalloc (fun _ => 0) (show 16 ≤ MAX_SIZE by decide)
    (fun n asked => booted_request (by decide) asked)
  have some := booted_some (show 16 ≤ 1024 by decide)
  unfold firstBlock
  generalize sysMalloc booted.heap kMemBlock 16 (fun _ => 0) = result at outcome some ⊢
  cases outcome with
  | failed => exact absurd rfl some
  | granted p h _ _ _ _ _ _ _ _ _ _ part =>
    obtain ⟨-, i, class_, ⟨page, idx, arena, inside, rfl⟩, -⟩ := part (by decide)
    rw [findClass_first core] at class_
    subst class_
    exact ⟨page, idx, arena, inside, rfl⟩

/-- The second block of a class lies in the page that the first call got, and a size just below
4 GiB gets one page. -/
theorem second_reuses_and_huge_wraps :
    (Reach (step kMemBlock) (Permitted kMemBlock MAX_SIZE) booted firstBlock ∧
      (sysMalloc firstBlock.heap kMemBlock 16 fun _ => 0).1 ≠ 0 ∧
        ¬ InOwnPages firstBlock 16 (sysMalloc firstBlock.heap kMemBlock 16 fun _ => 0).1
          (sysMalloc firstBlock.heap kMemBlock 16 fun _ => 0).2) ∧
      (sysMalloc booted.heap kMemBlock 0xFFFFFFF5 fun _ => 0).1 = 0xC010000C ∧
        ¬ InOwnPages booted 0xFFFFFFF5 0xC010000C (sysMalloc booted.heap kMemBlock 0xFFFFFFF5 fun _ => 0).2 := by
  refine ⟨⟨firstBlock_reach, ?_⟩, by decide +kernel, fun own => absurd own.1 (by decide)⟩
  have inv := reach_inv le_rfl booted_start firstBlock_reach
  obtain ⟨free, core⟩ := inv.core
  obtain ⟨page, idx, arena, inside, only⟩ := firstBlock_place
  have nothing : requested firstBlock.heap kMemBlock 16 = none := by
    obtain ⟨other, below, different⟩ : ∃ other < classBlocks 0, other ≠ idx := by
      by_cases first : idx = 0
      · exact ⟨1, by decide, by omega⟩
      · exact ⟨0, by decide, by omega⟩
    apply requested_none core (by decide) (findClass_first core) (by decide) ⟨page, other, arena, below, rfl⟩
    rw [only, List.mem_singleton]
    exact fun same => different (blockAt_injective same)
  have outcome := inv.sysMalloc (fun _ => 0) (show 16 ≤ MAX_SIZE by decide) (fun n asked => by rw [nothing] at asked; cases asked)
  generalize sysMalloc firstBlock.heap kMemBlock 16 (fun _ => 0) = result at outcome ⊢
  cases outcome with
  | failed h null =>
    obtain ⟨n, asked, -⟩ := null
    rw [nothing] at asked
    cases asked
  | granted p h some _ _ _ _ _ _ _ _ _ part =>
    refine ⟨some, ?_⟩
    rintro ⟨-, own⟩
    obtain ⟨-, i, -, block, -, origin⟩ := part (by decide)
    rcases origin with ⟨-, same⟩ | ⟨one, -⟩
    · apply (own p (Set.mem_Ico.mpr ⟨le_rfl, Nat.lt_add_of_pos_right (by decide)⟩)).1
      have mine := block.place.1
      rw [same] at mine
      exact List.mem_append_left _ (List.mem_append_left _ (List.mem_map_of_mem (f := Prod.fst) mine))
    · rw [nothing] at one
      cases one

end KOS.HeapRun
