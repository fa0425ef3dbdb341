import KOS.HeapPages

/-! Whole calls of `sys_malloc` and `sys_free`: what they return, and that they leave the bytes of
the live blocks alone. -/

namespace KOS.HeapLayout
open KOS.ByteMemory KOS.LinkMemory KOS.DoublyLinked KOS.KernelList KOS.Paging KOS.PageWiring KOS.PageCalls KOS.Heap
  NodeStore

variable {mblock : Nat} {h : HeapState} {live live' others : List Nat} {free : Nat → List Nat} {m : Memory} {pages : Pages}

/-- The bytes that belong to a pointer: its block, or the pages after the header. -/
def Extent (h : HeapState) (p : Nat) : Set Nat :=
  {a | (∃ i, IsBlock h.arenas i p ∧ a ∈ Set.Ico p (p + classSize i)) ∨
    ∃ page n, (page, n) ∈ h.large ∧ p = page * 4096 + 12 ∧ a ∈ Set.Ico p (page * 4096 + n * 4096)}

/-- A pointer that has room for `size` bytes. -/
def Placed (h : HeapState) (p size : Nat) : Prop :=
  (∃ i, IsBlock h.arenas i p ∧ size ≤ classSize i) ∨
    ∃ page n, (page, n) ∈ h.large ∧ p = page * 4096 + 12 ∧ p + size ≤ page * 4096 + n * 4096

theorem Placed.extent {p size a : Nat} (placed : Placed h p size) (low : p ≤ a) (high : a < p + size) : a ∈ Extent h p := by
  rcases placed with ⟨i, block, room⟩ | ⟨page, n, member, at_, room⟩
  · exact .inl ⟨i, block, Set.mem_Ico.mpr ⟨low, by omega⟩⟩
  · exact .inr ⟨page, n, member, at_, Set.mem_Ico.mpr ⟨low, by omega⟩⟩

theorem Placed.mono {h h' : HeapState} {p size : Nat} (placed : Placed h p size) (arenas : h.arenas ⊆ h'.arenas)
    (large : h.large ⊆ h'.large) : Placed h' p size := by
  rcases placed with ⟨i, ⟨page, idx, member, inside⟩, room⟩ | ⟨page, n, member, at_⟩
  · exact .inl ⟨i, ⟨page, idx, arenas member, inside⟩, room⟩
  · exact .inr ⟨page, n, large member, at_⟩

theorem Placed.page {h : HeapState} {p size : Nat} (placed : Placed h p size)
    (counts : ∀ page n, (page, n) ∈ h.large → 0 < n) : p / 4096 ∈ heapPages h := by
  rcases placed with ⟨i, block, -⟩ | ⟨page, n, member, rfl, -⟩
  · exact List.mem_append_left _ (List.mem_map_of_mem (f := Prod.fst) block.place.1)
  · have positive := counts page n member
    exact large_page member ⟨by omega, by omega⟩

theorem extent_mono {h' : HeapState} {p : Nat} (arenas : h.arenas ⊆ h'.arenas) (large : h.large ⊆ h'.large) :
    Extent h p ⊆ Extent h' p := by
  rintro a (⟨i, ⟨page, idx, member, inside⟩, low⟩ | ⟨page, n, member, at_⟩)
  · exact .inl ⟨i, ⟨page, idx, arenas member, inside⟩, low⟩
  · exact .inr ⟨page, n, large member, at_⟩

/-- The page of a byte that belongs to a pointer. -/
theorem extent_page {p a : Nat} (inside : a ∈ Extent h p) : a / 4096 ∈ heapPages h := by
  rcases inside with ⟨i, block, low, high⟩ | ⟨page, n, member, rfl, inside⟩
  · obtain ⟨arena, -, room⟩ := block.place
    have same : a / 4096 = p / 4096 := by omega
    rw [same]
    exact List.mem_append_left _ (List.mem_map_of_mem (f := Prod.fst) arena)
  · obtain ⟨low, high⟩ := Set.mem_Ico.mp inside
    exact large_page member ⟨by omega, by omega⟩

theorem Core.extent_heap {p a : Nat} (core : Core mblock h live others free) (inside : a ∈ Extent h p) :
    InHeap (a / 4096) := core.wiring.heap _ (List.mem_append_left _ (extent_page inside))

/-- A block is apart from what belongs to another pointer. -/
theorem Core.extent_block {i b p a : Nat} (core : Core mblock h live others free) (block : IsBlock h.arenas i b)
    (different : p ≠ b) (inside : a ∈ Extent h p) : a ∉ Set.Ico b (b + classSize i) := by
  obtain ⟨arena, -, room⟩ := block.place
  rintro ⟨low, high⟩
  rcases inside with ⟨j, block', low', high'⟩ | ⟨page, n, member, rfl, inside⟩
  · have gap := core.block_gap block' block different
    omega
  · obtain ⟨low', high'⟩ := Set.mem_Ico.mp inside
    exact core.arena_apart_large arena member ⟨by omega, by omega⟩

/-- What belongs to a live pointer is none of the heap's own bytes. -/
theorem Core.extent_own {p a : Nat} (core : Core mblock h live others free) (used : p ∈ live) (inside : a ∈ Extent h p) :
    a ∉ Bookkeeping h live := by
  have heap := core.extent_heap inside
  rintro (low | ⟨page', offset⟩ | ⟨i, x, block, dead, low, high⟩)
  · have first := heap.1
    unfold K_HEAP_START at low
    omega
  · rcases inside with ⟨i, block, low, high⟩ | ⟨page, n, member, rfl, inside⟩
    · obtain ⟨-, low', -⟩ := block.place
      have room := block.place.2.2
      omega
    · obtain ⟨low, high⟩ := Set.mem_Ico.mp inside
      have within : a / 4096 ∈ pagesFrom page n := ⟨by omega, by omega⟩
      rcases List.mem_append.mp page' with small | big
      · obtain ⟨⟨q, i⟩, arena, same⟩ := List.mem_map.mp small
        exact core.arena_apart_large arena member ((show q = a / 4096 from same) ▸ within)
      · obtain ⟨⟨q, n'⟩, other, same⟩ := List.mem_map.mp big
        have index : q = a / 4096 := same
        have different : q ≠ page := by omega
        have first : a / 4096 ∈ pagesFrom q n' := ⟨by omega, by have := core.counts q n' other; omega⟩
        exact core.large_disjoint member other different within first
  · have different : p ≠ x := fun same => dead (same ▸ used)
    have room := classSize_ge i
    exact core.extent_block block different inside ⟨low, by omega⟩

theorem Core.extent_unclaimed {p a : Nat} (_core : Core mblock h live others free) (inside : a ∈ Extent h p) :
    a ∉ Unclaimed h others := fun out => out.2 (List.mem_append_left _ (extent_page inside))

theorem Core.extent_touched {i b p a : Nat} (core : Core mblock h live others free) (small : i < MEM_BLOCK_CNT)
    (block : IsBlock h.arenas i b) (used : p ∈ live) (different : p ≠ b) (inside : a ∈ Extent h p) :
    a ∉ Touched mblock free i b := by
  have own := core.extent_own used inside
  have room := classSize_ge i
  rintro ((⟨y, node, low, high⟩ | within) | count)
  · rcases List.mem_cons.mp node with rfl | node
    · exact core.extent_block block different inside ⟨low, by omega⟩
    · rcases core.node_cases small node with rfl | rfl | ⟨block', dead⟩
      · have desc := core.desc_low small
        exact own (.inl (by unfold K_HEAP_START; omega))
      · have desc := core.desc_low small
        exact own (.inl (by unfold K_HEAP_START; omega))
      · exact own (.inr (.inr ⟨i, y, block', dead, low, high⟩))
  · exact core.extent_block block different inside within
  · obtain ⟨low, high⟩ := Set.mem_Ico.mp count
    have arena := block.place.1
    have page : a / 4096 = b / 4096 := by omega
    apply own
    right
    left
    rw [page]
    exact ⟨List.mem_append_left _ (List.mem_map_of_mem (f := Prod.fst) arena), by omega⟩

/-- The pages that a call asks `page_acquire` for. -/
def requested (h : HeapState) (mblock size : Nat) : Option Nat :=
  if 1024 < size then some (pageCnt size)
  else if listEmpty h.mem (freeList (descAt mblock (findClass h.mem mblock size MEM_BLOCK_CNT 0))) then some 1 else none

/-- The outcomes of `sys_malloc`. -/
inductive Malloced (mblock : Nat) (h : HeapState) (live others : List Nat) (size : Nat) : Nat × HeapState → Prop where
  | failed (h' : HeapState) (null : ∃ n ∈ requested h mblock size, (pageAcquire h.pages 0 n).1 = 0)
      (core : ∃ free, Core mblock h' live others free) (arenas : h'.arenas = h.arenas)
      (large : h'.large = h.large) (kept : ∀ p ∈ live, ∀ a ∈ Extent h p, h'.mem a = h.mem a) :
      Malloced mblock h live others size (0, h')
  | granted (p : Nat) (h' : HeapState) (some : p ≠ 0) (core : ∃ free, Core mblock h' (p :: live) others free)
      (placed : Placed h' p size) (new : p ∉ live) (arenas : h.arenas ⊆ h'.arenas) (large : h.large ⊆ h'.large)
      (used : ∀ page i, (page, i) ∈ h'.arenas → (page, i) ∈ h.arenas ∨ ∃ idx < classBlocks i, p = blockAt page i idx)
      (zero : ∀ a ∈ Extent h' p, h'.mem a = 0) (kept : ∀ q ∈ live, ∀ a ∈ Extent h q, h'.mem a = h.mem a)
      (whole : 1024 < size → ∃ page, p = page * 4096 + 12 ∧ (page, pageCnt size) ∈ h'.large ∧
        ∀ q ∈ pagesFrom page (pageCnt size), q ∉ claimed h others)
      (part : size ≤ 1024 → h'.large = h.large ∧ ∃ i, i = findClass h.mem mblock size MEM_BLOCK_CNT 0 ∧
        IsBlock h'.arenas i p ∧ size ≤ classSize i ∧ (requested h mblock size = none ∧ h'.arenas = h.arenas ∨
          requested h mblock size = Option.some 1 ∧ p / 4096 ∉ claimed h others)) :
      Malloced mblock h live others size (p, h')

/-- A block of one class has the bytes of that class, no others. -/
theorem Core.extent_of_block {i b a : Nat} (core : Core mblock h live others free) (block : IsBlock h.arenas i b)
    (inside : a ∈ Extent h b) : a ∈ Set.Ico b (b + classSize i) := by
  rcases inside with ⟨j, block', within⟩ | ⟨page, n, member, at_, within⟩
  · have same := core.class_unique block'.place.1 block.place.1
    exact same ▸ within
  · exfalso
    obtain ⟨low, high⟩ := Set.mem_Ico.mp within
    exact core.arena_apart_large block.place.1 member ⟨by omega, by omega⟩

theorem Core.memAcquire {i size : Nat} (fresh : Memory) (core : Core mblock h live others free) (small : i < MEM_BLOCK_CNT)
    (fits : size ≤ classSize i) (little : size ≤ 1024) (chosen : i = findClass h.mem mblock size MEM_BLOCK_CNT 0)
    (request : ∀ n ∈ requested h mblock size, Request h.pages.vp 0 n) (owned : ∀ p ∈ live, p / 4096 ∈ heapPages h) :
    Malloced mblock h live others size (Heap.memAcquire h mblock i fresh) := by
  have emptiness := listEmpty_iff (core.lists i small) not_apart_self
  have none_ : free i ≠ [] → requested h mblock size = none := by
    intro some
    rw [requested, if_neg (by omega), ← chosen, if_neg fun none => some (emptiness.mp none)]
  have one : free i = [] → requested h mblock size = some 1 := by
    intro empty
    rw [requested, if_neg (by omega), ← chosen, if_pos (emptiness.mpr empty)]
  have grown := core.grow fresh small (fun empty => request 1 (one empty)) owned
  unfold Heap.memAcquire
  generalize growArena h mblock i fresh = result at grown
  cases grown with
  | failed pages m empty null core' changes =>
    have kept : ∀ p ∈ live, ∀ a ∈ Extent h p, m a = h.mem a := fun p _ a inside =>
      changes a (core.extent_unclaimed inside)
    exact .failed _ ⟨1, one empty, null⟩ ⟨free, core'⟩ rfl rfl kept
  | filled some =>
    obtain ⟨b, rest, front⟩ := List.exists_cons_of_ne_nil some
    obtain ⟨m, took, block, dead, core', zero, changes⟩ := core.take small front
    have heap := (core.block_place block).1
    have nonzero : b ≠ 0 := by
      rintro rfl
      exact absurd heap.1 (by decide)
    have kept : ∀ q ∈ live, ∀ a ∈ Extent h q, m a = h.mem a := fun q used a inside =>
      changes a (core.extent_touched small block used (fun same => dead (same ▸ used)) inside)
    show Malloced mblock h live others size (takeBlock h mblock i)
    rw [took]
    exact .granted b _ nonzero ⟨_, core'⟩ (.inl ⟨i, block, fits⟩) dead (List.Subset.refl _) (List.Subset.refl _) (fun _ _ => .inl)
      (fun a inside => zero a (core.extent_of_block block inside)) kept (fun big => absurd big (by omega))
      (fun _ => ⟨rfl, i, chosen, block, fits, .inl ⟨none_ some, rfl⟩⟩)
  | joined page pages m empty new core₁ changes₁ =>
    have positive := classBlocks_pos small
    obtain ⟨b, rest, front⟩ : ∃ b rest, (List.range (classBlocks i)).map (blockAt page i) = b :: rest := by
      apply List.exists_cons_of_ne_nil
      simp only [ne_eq, List.map_eq_nil_iff, List.range_eq_nil]
      omega
    obtain ⟨m', took, block, dead, core', zero, changes⟩ := core₁.take small ((Function.update_self ..).trans front)
    have heap := (core₁.block_place block).1
    have nonzero : b ≠ 0 := by
      rintro rfl
      exact absurd heap.1 (by decide)
    obtain ⟨idx, inside, at_⟩ := List.mem_map.mp (front ▸ List.mem_cons_self : b ∈ (List.range (classBlocks i)).map (blockAt page i))
    have index : b / 4096 = page := by
      have bounds := blockAt_bounds page (List.mem_range.mp inside)
      have room := classSize_ge i
      omega
    have more : h.arenas ⊆ (addArena (setPages h pages m) page i).arenas := List.subset_cons_self _ _
    have kept : ∀ q ∈ live, ∀ a ∈ Extent h q, m' a = h.mem a := by
      intro q used a within
      have within' : a ∈ Extent (addArena (setPages h pages m) page i) q := extent_mono more (List.Subset.refl _) within
      have second := changes a (core₁.extent_touched small block used (fun same => dead (same ▸ used)) within')
      have first : m a = h.mem a := by
        apply changes₁
        rintro (out | ⟨low, high⟩)
        · exact core.extent_unclaimed within out
        · have desc := core.desc_low small
          have above := (core.extent_heap within).1
          omega
      exact second.trans first
    show Malloced mblock h live others size (takeBlock (addArena (setPages h pages m) page i) mblock i)
    rw [took]
    refine .granted b _ nonzero ⟨_, core'⟩ (.inl ⟨i, block, fits⟩) dead more (List.Subset.refl _) ?_
      (fun a within => zero a (core₁.extent_of_block block within)) kept (fun big => absurd big (by omega))
      (fun _ => ⟨rfl, i, chosen, block, fits, .inr ⟨one empty, index ▸ new⟩⟩)
    intro q j member
    rcases List.mem_cons.mp member with fresh' | old
    · cases fresh'
      exact .inr ⟨idx, List.mem_range.mp inside, at_.symm⟩
    · exact .inl old

theorem findClass_spec {size left idx : Nat} (sizes : ∀ i < MEM_BLOCK_CNT, blockSize m (descAt mblock i) = classSize i)
    (little : size ≤ 1024) (count : left + idx = MEM_BLOCK_CNT) (more : 0 < left) :
    findClass m mblock size left idx < MEM_BLOCK_CNT ∧ size ≤ classSize (findClass m mblock size left idx) := by
  induction left generalizing idx with
  | zero => exact absurd more (Nat.lt_irrefl 0)
  | succ left ih =>
    have index : idx < MEM_BLOCK_CNT := by omega
    rw [findClass, sizes idx index]
    by_cases fits : size ≤ classSize idx
    · rw [if_pos fits]
      exact ⟨index, fits⟩
    · rw [if_neg fits]
      by_cases last : left = 0
      · have top : idx = 6 := by
          unfold MEM_BLOCK_CNT at count
          omega
        subst top
        exact absurd little fits
      · exact ih (by omega) (by omega)

/-- The largest size that does not wrap when the header and the rounding are added. -/
def MAX_SIZE : Nat := 2 ^ 32 - (ARENA_SIZE + PG_SIZE)

theorem pageCnt_covers {size : Nat} (limit : size ≤ MAX_SIZE) : size + 12 ≤ pageCnt size * 4096 := by
  unfold MAX_SIZE at limit
  unfold pageCnt
  unfold ARENA_SIZE PG_SIZE at *
  omega

theorem Core.sysMalloc {size : Nat} (fresh : Memory) (core : Core mblock h live others free) (limit : size ≤ MAX_SIZE)
    (request : ∀ n ∈ requested h mblock size, Request h.pages.vp 0 n) (owned : ∀ p ∈ live, p / 4096 ∈ heapPages h) :
    Malloced mblock h live others size (Heap.sysMalloc h mblock size fresh) := by
  unfold Heap.sysMalloc
  by_cases big : 1024 < size
  · rw [if_pos big]
    have ask := request (pageCnt size) (by rw [requested, if_pos big]; rfl)
    have covers := pageCnt_covers limit
    cases ran : pageAcquire h.pages 0 (pageCnt size) with
    | mk start pages =>
      obtain ⟨mapped, outcome⟩ := core.acquire fresh ask ran
      have kept : ∀ {m}, ChangesOnly (Unclaimed h others) h.mem m → ∀ q ∈ live, ∀ a ∈ Extent h q, m a = h.mem a :=
        fun changes q _ a inside => changes a (core.extent_unclaimed inside)
      rcases outcome with ⟨null, wires⟩ | ⟨some, page, rfl, free_, wires⟩
      · simp only [if_pos null]
        exact .failed _ ⟨pageCnt size, by rw [requested, if_pos big]; rfl, (congrArg Prod.fst ran).trans null⟩ ⟨free, core.repage wires mapped⟩ rfl rfl (kept mapped)
      · have positive := ask.1
        simp only [if_neg some]
        generalize counted : pageCnt size = n at *
        have top := (free_ (page + n - 1) ⟨by omega, by omega⟩).1.2
        obtain ⟨heap, unclaimed⟩ := free_ page ⟨le_rfl, by omega⟩
        have inside := page_unclaimed free_
        have cleared : ChangesOnly (Unclaimed h others) h.mem
            (memset (remap h.pages pages h.mem fresh) (page * 4096) 0 (n * PG_SIZE)) :=
          mapped.trans ((memset_changes _ 0 (by unfold PG_SIZE; omega)).mono inside)
        have zeros : ∀ a ∈ Set.Ico (page * 4096) (page * 4096 + n * PG_SIZE),
            memset (remap h.pages pages h.mem fresh) (page * 4096) 0 (n * PG_SIZE) a = 0 :=
          fun a within => memset_at _ 0 (by unfold PG_SIZE; omega) within
        generalize memset (remap h.pages pages h.mem fresh) (page * 4096) 0 (n * PG_SIZE) = m1 at cleared zeros ⊢
        have written := setHeader_changes (a := page * 4096) 0 n true m1 (by omega)
        have reads := (setHeader_reads (a := page * 4096) true m1 (by omega) (show 0 < 2 ^ 32 by decide)
          (show n < 2 ^ 32 by omega)).2
        have headed : ChangesOnly (Unclaimed h others) h.mem (setHeader m1 (page * 4096) 0 n true) :=
          cleared.trans (written.mono ((Set.Ico_subset_Ico_right (by omega)).trans inside))
        generalize setHeader m1 (page * 4096) 0 n true = m2 at written reads headed ⊢
        have core' := core.extend positive free_ wires headed reads
        clear reads
        have index : page * 4096 / PG_SIZE = page := Nat.mul_div_cancel _ (by decide)
        have pointer : (page * 4096 + ARENA_SIZE) % 2 ^ 32 = page * 4096 + 12 := by
          unfold ARENA_SIZE
          omega
        rw [index, pointer]
        clear index pointer
        have own : page ∉ heapPages h := fun mine => unclaimed (List.mem_append_left _ mine)
        have nonzero : page * 4096 + 12 ≠ 0 := (Nat.add_pos_right _ (by decide)).ne'
        refine .granted _ _ nonzero ⟨free, core'.relive ?_⟩ (.inr ⟨page, n, List.mem_cons_self, rfl, by omega⟩) ?_
          (List.Subset.refl _) (List.subset_cons_self _ _) (fun _ _ => .inl) ?_ (kept headed) ?_
          (fun little => absurd little (by omega))
        · intro i x block
          rw [List.mem_cons]
          apply or_iff_right
          rintro rfl
          have arena := block.place.1
          rw [show (page * 4096 + 12) / 4096 = page by omega] at arena
          exact own (List.mem_append_left _ (List.mem_map_of_mem (f := Prod.fst) arena))
        · intro used
          have mine := owned _ used
          rw [show (page * 4096 + 12) / 4096 = page by omega] at mine
          exact own mine
        · intro a within
          have bytes : a ∈ Set.Ico (page * 4096 + 12) (page * 4096 + n * 4096) := by
            rcases within with ⟨i, block, -⟩ | ⟨page', n', member, at_, bytes⟩
            · have arena := block.place.1
              rw [show (page * 4096 + 12) / 4096 = page by omega] at arena
              exact absurd (List.mem_append_left _ (List.mem_map_of_mem (f := Prod.fst) arena)) own
            · have same : page' = page := by omega
              subst same
              rcases List.mem_cons.mp member with new | old
              · cases new
                exact bytes
              · exact absurd (large_page old ⟨le_rfl, by have := core.counts page' n' old; omega⟩) own
          obtain ⟨low, high⟩ := Set.mem_Ico.mp bytes
          show m2 a = 0
          rw [written a (fun header => by have := (Set.mem_Ico.mp header).2; omega)]
          exact zeros a (Set.mem_Ico.mpr ⟨(Nat.le_add_right _ 12).trans low, high⟩)
        · intro _
          rw [counted]
          exact ⟨page, rfl, List.mem_cons_self, fun q member => (free_ q member).2⟩
  · rw [if_neg big]
    obtain ⟨small, fits⟩ := findClass_spec (m := h.mem) (fun i index => (core.descs i index).1)
      (show size ≤ 1024 by omega) (show MEM_BLOCK_CNT + 0 = MEM_BLOCK_CNT from rfl) (by decide)
    exact core.memAcquire fresh small fits (by omega) rfl request owned

/-- `h'` is `h` after the pointer `p` was freed, with `live'` left. -/
structure Freed (mblock : Nat) (h : HeapState) (live' others : List Nat) (p : Nat) (h' : HeapState) : Prop where
  core : ∃ free, Core mblock h' live' others free
  kept : ∀ q ∈ live', ∀ a ∈ Extent h q, h'.mem a = h.mem a
  arenas : h'.arenas ⊆ h.arenas
  large : h'.large ⊆ h.large
  stays : ∀ page i idx, (page, i) ∈ h.arenas → idx < classBlocks i → blockAt page i idx ∈ live' → (page, i) ∈ h'.arenas
  staysLarge : ∀ page n, (page, n) ∈ h.large → page * 4096 + 12 ∈ live' → (page, n) ∈ h'.large
  used : ∀ i, (p / 4096, i) ∈ h'.arenas → ∃ idx < classBlocks i, blockAt (p / 4096) i idx ∈ live'

/-- The two ways `mem_release` ends: another block of the arena is live and the pages are as
before, or the arena is gone and its page is not mapped. -/
theorem Core.memRelease {i b : Nat} (core : Core mblock h live others free) (block : IsBlock h.arenas i b)
    (used : b ∈ live) (without : ∀ x, x ∈ live' ↔ x ≠ b ∧ x ∈ live) :
    ∃ h', Heap.memRelease h b = some h' ∧ (∃ free, Core mblock h' live' others free) ∧ h'.large = h.large ∧
      (∀ q ∈ live', ∀ a ∈ Extent h q, h'.mem a = h.mem a) ∧
      ((∃ idx < classBlocks i, blockAt (b / 4096) i idx ∈ live') ∧ h'.arenas = h.arenas ∧ h'.pages = h.pages ∨
        (∀ idx < classBlocks i, blockAt (b / 4096) i idx ∉ live') ∧ h'.arenas = h.arenas.filter (·.1 ≠ b / 4096) ∧
          present (h'.pages.pte (b / 4096)) = false) := by
  have arena := block.place.1
  have small := core.classes _ i arena
  have heap := core.arena_heap arena
  have below := heap.2
  have header : block2arena b = b / 4096 * 4096 := block2arena_eq b (by omega)
  obtain ⟨m, gave, core', changes⟩ := core.give small block used without
  have kept : ∀ q ∈ live', ∀ a ∈ Extent h q, m a = h.mem a := by
    intro q inside a within
    obtain ⟨different, old⟩ := (without q).mp inside
    exact changes a (core.extent_touched small block old different within)
  rw [Heap.memRelease, gave, header]
  by_cases more : ∃ idx < classBlocks i, blockAt (b / 4096) i idx ∈ live'
  · obtain ⟨idx, inside, other⟩ := more
    exact ⟨setMem h m, core'.stay arena inside other, ⟨_, core'⟩, rfl, kept, .inl ⟨⟨idx, inside, other⟩, rfl, rfl⟩⟩
  · have dead : ∀ idx < classBlocks i, blockAt (b / 4096) i idx ∉ live' := fun idx inside member => more ⟨idx, inside, member⟩
    obtain ⟨pages, m', rest, dropped, core'', changes', -, gone⟩ := core'.drop arena dead
    refine ⟨_, dropped, ⟨_, core''⟩, rfl, ?_, .inr ⟨dead, rfl, gone⟩⟩
    intro q inside a within
    obtain ⟨different, old⟩ := (without q).mp inside
    have same : m' a = m a := by
      apply changes'
      intro cell
      apply core'.extent_touched small block inside different within
      exact nodes_touched _ _ _ _ (cells_mono (List.subset_cons_self _ _) cell)
    exact same.trans (kept q inside a within)

theorem Core.sysFree {p size : Nat} (core : Core mblock h live others free) (placed : Placed h p size)
    (used : p ∈ live) (without : ∀ x, x ∈ live' ↔ x ≠ p ∧ x ∈ live) :
    ∃ h', Heap.sysFree h p = some h' ∧ Freed mblock h live' others p h' := by
  rcases placed with ⟨i, block, -⟩ | ⟨page, n, member, rfl, -⟩
  · have arena := block.place.1
    have below := (core.arena_heap arena).2
    have header : block2arena p = p / 4096 * 4096 := block2arena_eq p (by omega)
    have kind : isPageCnt h.mem (p / 4096 * 4096) = false := (core.headers _ i arena).2.2
    obtain ⟨h', released, core', large, kept, outcome⟩ := core.memRelease block used without
    refine ⟨h', ?_, core', kept, ?_, ?_, ?_, ?_, ?_⟩
    · simp only [Heap.sysFree, header, kind]
      exact released
    · rcases outcome with ⟨-, same, -⟩ | ⟨-, fewer, -⟩
      · rw [same]
        exact List.Subset.refl _
      · rw [fewer]
        exact List.filter_sublist.subset
    · rw [large]
      exact List.Subset.refl _
    · intro page j idx member inside other
      rcases outcome with ⟨-, same, -⟩ | ⟨dead, fewer, -⟩
      · rw [same]
        exact member
      · rw [fewer, List.mem_filter]
        refine ⟨member, decide_eq_true ?_⟩
        rintro rfl
        have class_ := core.class_unique member arena
        subst class_
        exact dead idx inside other
    · intro page n member _
      rw [large]
      exact member
    · intro j member
      rcases outcome with ⟨⟨idx, inside, other⟩, same, -⟩ | ⟨-, fewer, -⟩
      · rw [same] at member
        have class_ := core.class_unique member arena
        subst class_
        exact ⟨idx, inside, other⟩
      · rw [fewer] at member
        exact absurd rfl (of_decide_eq_true (List.mem_filter.mp member).2)
  · have below := (core.large_heap member).2
    have header : block2arena (page * 4096 + 12) = page * 4096 := by
      rw [block2arena_eq _ (by omega)]
      omega
    obtain ⟨count, kind⟩ := core.larges page n member
    unfold PG_SIZE at count kind
    obtain ⟨pages, released, core'⟩ := core.shrink member
    have first : (page * 4096 + 12) / 4096 = page := by
      clear count kind released
      omega
    have index : page * 4096 / PG_SIZE = page := Nat.mul_div_cancel _ (by decide)
    refine ⟨removeLarge (setPages h pages h.mem) page, ?_, ⟨free, core'.relive ?_⟩, fun _ _ _ _ => rfl,
      List.Subset.refl _, List.filter_sublist.subset, fun _ _ _ arena _ _ => arena, ?_, ?_⟩
    · simp only [Heap.sysFree, header, kind, if_true, count, released, Option.map_some, index]
    · intro i x block
      rw [without]
      apply and_iff_right
      rintro rfl
      have arena := block.place.1
      rw [first] at arena
      exact core.arena_apart_large arena member ⟨le_rfl, by have := core.counts page n member; omega⟩
    · intro page' n' member' other
      rw [show (removeLarge (setPages h pages h.mem) page).large = h.large.filter (·.1 ≠ page) from rfl, List.mem_filter]
      refine ⟨member', decide_eq_true ?_⟩
      rintro rfl
      exact ((without _).mp other).1 rfl
    · intro i arena
      rw [first] at arena
      exact absurd ⟨le_rfl, by have := core.counts page n member; omega⟩ (core.arena_apart_large arena member)

end KOS.HeapLayout
