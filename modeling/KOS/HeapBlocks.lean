import KOS.HeapLayout

/-! `mem_acquire` and `mem_release`, one half at a time: a block is taken or given back, an arena
is carved or unlinked. -/

namespace KOS.HeapLayout
open KOS.ByteMemory KOS.LinkMemory KOS.DoublyLinked KOS.KernelList KOS.Paging KOS.PageWiring KOS.PageCalls KOS.Heap
  NodeStore

variable {mblock : Nat} {h : HeapState} {live others : List Nat} {free : Nat → List Nat} {m : Memory} {S : Set Nat}

theorem nodes_touched (mblock : Nat) (free : Nat → List Nat) (i b : Nat) :
    cells (b :: nodes mblock free i) ⊆ Touched mblock free i b := fun _ inside => .inl (.inl inside)

theorem block_touched (mblock : Nat) (free : Nat → List Nat) (i b : Nat) :
    Set.Ico b (b + classSize i) ⊆ Touched mblock free i b := fun _ inside => .inl (.inr inside)

theorem count_touched (mblock : Nat) (free : Nat → List Nat) (i b : Nat) :
    Set.Ico (b / 4096 * 4096 + 4) (b / 4096 * 4096 + 8) ⊆ Touched mblock free i b := fun _ inside => .inr inside

theorem setCnt_changes (m : Memory) {a : Nat} (v : Nat) (fits : a + 8 ≤ 2 ^ 32) :
    ChangesOnly (Set.Ico (a + 4) (a + 8)) m (setCnt m a v) := store32_changes m _ (by omega)

theorem cnt_setCnt (m : Memory) (a v : Nat) : cnt (setCnt m a v) a = v % 2 ^ 32 :=
  load32_store32 m (a + 4) (Nat.mod_lt v (by decide))

/-- The count of an arena survives a change of nodes and of a block. -/
theorem Core.count_kept {i b : Nat} (core : Core mblock h live others free) (small : i < MEM_BLOCK_CNT)
    (block : IsBlock h.arenas i b)
    (changes : ChangesOnly (cells (b :: nodes mblock free i) ∪ Set.Ico b (b + classSize i)) h.mem m) :
    cnt m (b / 4096 * 4096) = freeCount (b / 4096) i live := by
  have heap := (core.block_place block).1
  have away : ∀ a ∈ Set.Ico (b / 4096 * 4096) (b / 4096 * 4096 + 12),
      a ∉ cells (b :: nodes mblock free i) ∪ Set.Ico b (b + classSize i) := by
    rintro a inside touched
    have gap := core.block_header block (b / 4096)
    have room := classSize_ge i
    obtain ⟨low, high⟩ := Set.mem_Ico.mp inside
    rcases touched with ⟨y, node, low', high'⟩ | ⟨low', high'⟩
    · rcases List.mem_cons.mp node with rfl | node
      · omega
      · have gap' := core.node_header small node heap
        omega
    · omega
  exact (core.arena_kept block.place.1 changes away).2.1

/-- The first free block goes to a client, and holds zeros. -/
theorem Core.take {i b : Nat} {rest : List Nat} (core : Core mblock h live others free) (small : i < MEM_BLOCK_CNT)
    (front : free i = b :: rest) :
    ∃ m, takeBlock h mblock i = (b, setMem h m) ∧ IsBlock h.arenas i b ∧ b ∉ live ∧
      Core mblock (setMem h m) (b :: live) others (Function.update free i rest) ∧
      (∀ a ∈ Set.Ico b (b + classSize i), m a = 0) ∧ ChangesOnly (Touched mblock free i b) h.mem m := by
  have holds := core.lists i small
  rw [front] at holds
  obtain ⟨block, dead⟩ := (core.members i small b).mp (front ▸ List.mem_cons_self)
  obtain ⟨heap, inside, room⟩ := core.block_place block
  have below := heap.2
  have positive := classSize_ge i
  obtain ⟨popped, left⟩ := listPop_holds holds not_apart_self
  have fits : ∀ x ∈ nodes mblock free i, x + 8 ≤ 2 ^ 32 := fun _ member => core.node_fits small member
  have stays : ∀ x ∈ (freeList (descAt mblock i)).head :: rest ++ [(freeList (descAt mblock i)).tail],
      x ∈ nodes mblock free i := by
    intro x member
    unfold nodes
    rw [front]
    exact (List.Sublist.cons_cons _ (List.Sublist.append_right (List.sublist_cons_self b rest) _)).subset member
  have unlinked : ChangesOnly (cells (b :: nodes mblock free i)) h.mem (listRemove h.mem b) := by
    unfold nodes at fits ⊢
    rw [front] at fits ⊢
    exact (listRemove_changes [] holds fits).mono (cells_mono (List.subset_cons_self ..))
  have size : blockSize (listRemove h.mem b) (descAt mblock i) = classSize i :=
    (core.descs_kept small (unlinked.mono (nodes_touched mblock free i b))
      fun a word => core.untouched_desc small small block word).1
  have cleared := memset_changes (listRemove h.mem b) (a := b) (n := classSize i) 0 (by omega)
  have arena : block2arena b = b / 4096 * 4096 := block2arena_eq b (by omega)
  have count := core.count_kept small block
    ((unlinked.mono Set.subset_union_left).trans (cleared.mono Set.subset_union_right))
  generalize cells_ : memset (listRemove h.mem b) b 0 (classSize i) = m2 at cleared count
  have counted := setCnt_changes m2 (a := b / 4096 * 4096) (cnt m2 (b / 4096 * 4096) + 2 ^ 32 - 1) (by omega)
  refine ⟨setCnt m2 (b / 4096 * 4096) (cnt m2 (b / 4096 * 4096) + 2 ^ 32 - 1), ?_, block, dead, ?_, ?_, ?_⟩
  · simp only [takeBlock, popped, Option.getD_some, size, cells_, arena]
  · have whole : ChangesOnly (Touched mblock free i b) h.mem
        (setCnt m2 (b / 4096 * 4096) (cnt m2 (b / 4096 * 4096) + 2 ^ 32 - 1)) :=
      ((unlinked.mono (nodes_touched mblock free i b)).trans (cleared.mono (block_touched mblock free i b))).trans
        (counted.mono (count_touched mblock free i b))
    have distinct := holds_nodup holds
    apply core.turn small block whole
    · apply holds_kept left ((cleared.mono Set.subset_union_left).trans (counted.mono Set.subset_union_right))
      · exact fun x member => fits x (stays x member)
      · rintro x member a ⟨low, high⟩ touched
        have node := stays x member
        have different : x ≠ b := by
          rintro rfl
          have apart := holds.apart
          rw [List.cons_append, List.cons_append, List.pairwise_cons, List.pairwise_cons] at apart
          rw [List.cons_append, List.mem_cons] at member
          rcases member with rfl | later
          · exact not_apart_self _ (apart.1 _ List.mem_cons_self)
          · exact not_apart_self _ (apart.2.1 _ later)
        have gap := core.node_block small node block different
        have gap' := core.node_header small node heap
        rcases touched with ⟨low', high'⟩ | ⟨low', high'⟩ <;> omega
    · intro x
      have member := core.members i small x
      rw [front, List.mem_cons] at member
      rw [List.mem_cons, not_or]
      constructor
      · intro later
        obtain ⟨block', dead'⟩ := member.mp (.inr later)
        refine ⟨block', ?_, dead'⟩
        rintro rfl
        exact (List.nodup_cons.mp distinct).1 later
      · rintro ⟨block', different, dead'⟩
        exact (member.mpr ⟨block', dead'⟩).resolve_left different
    · intro x different
      rw [List.mem_cons]
      exact or_iff_right different
    · obtain ⟨page, idx, member, inside', rfl⟩ := block
      have bounds := blockAt_bounds page inside'
      have page' : blockAt page i idx / 4096 = page := by omega
      rw [page'] at count ⊢
      have less := freeCount_cons inside' dead
      have most := freeCount_le page i live
      have few := Nat.div_le_self (PG_SIZE - ARENA_SIZE) (classSize i)
      rw [cnt_setCnt, count, less]
      rw [less] at most
      unfold classBlocks at most
      unfold PG_SIZE ARENA_SIZE at most few
      omega
  · intro a member
    have other : a ∉ Set.Ico (b / 4096 * 4096 + 4) (b / 4096 * 4096 + 8) := by
      obtain ⟨low, high⟩ := member
      rintro ⟨low', high'⟩
      omega
    rw [counted a other, ← cells_]
    exact memset_at _ 0 (by omega) member
  · exact ((unlinked.mono (nodes_touched mblock free i b)).trans (cleared.mono (block_touched mblock free i b))).trans
      (counted.mono (count_touched mblock free i b))

/-- A client gives a block back, which becomes the last of its free list. -/
theorem Core.give {i b : Nat} {live' : List Nat} (core : Core mblock h live others free) (small : i < MEM_BLOCK_CNT)
    (block : IsBlock h.arenas i b) (used : b ∈ live) (without : ∀ x, x ∈ live' ↔ x ≠ b ∧ x ∈ live) :
    ∃ m, giveBlock h b = setMem h m ∧
      Core mblock (setMem h m) live' others (Function.update free i (free i ++ [b])) ∧
      ChangesOnly (Touched mblock free i b) h.mem m := by
  have holds := core.lists i small
  obtain ⟨heap, inside, room⟩ := core.block_place block
  have below := heap.2
  have positive := classSize_ge i
  have arena : block2arena b = b / 4096 * 4096 := block2arena_eq b (by omega)
  have desc : pMemBlock h.mem (b / 4096 * 4096) = descAt mblock i := (core.headers _ i block.place.1).1
  have absent : ∀ x ∈ nodes mblock free i, x ≠ b := by
    rintro x member rfl
    have low := core.desc_low small
    have first := heap.1
    rcases core.node_cases small member with same | same | ⟨-, dead⟩
    · omega
    · omega
    · exact dead used
  have fits : ∀ x ∈ b :: nodes mblock free i, x + 8 ≤ 2 ^ 32 := by
    intro x member
    rcases List.mem_cons.mp member with rfl | node
    · omega
    · exact core.node_fits small node
  have apart : ∀ x ∈ nodes mblock free i, Apart Memory b x := by
    intro x member
    have gap := core.node_block small member block (absent x member)
    exact apart_of_gap (fits b List.mem_cons_self) (fits x (List.mem_cons_of_mem _ member)) (by omega)
  have appended := listAppend_holds holds (show b < 2 ^ 32 by omega) apart
  have linked : ChangesOnly (cells (b :: nodes mblock free i)) h.mem (listAppend h.mem (freeList (descAt mblock i)) b) :=
    listAppend_changes holds fits
  have count := core.count_kept small block (linked.mono Set.subset_union_left)
  generalize links : listAppend h.mem (freeList (descAt mblock i)) b = m1 at appended linked count
  have counted := setCnt_changes m1 (a := b / 4096 * 4096) (cnt m1 (b / 4096 * 4096) + 1) (by omega)
  have whole := (linked.mono (nodes_touched mblock free i b)).trans (counted.mono (count_touched mblock free i b))
  refine ⟨setCnt m1 (b / 4096 * 4096) (cnt m1 (b / 4096 * 4096) + 1), ?_, ?_, whole⟩
  · simp only [giveBlock, arena, desc, links]
  · apply core.turn small block whole
    · apply holds_kept appended counted
      · intro x member
        apply fits
        simp only [nodes, List.mem_append, List.mem_cons, List.not_mem_nil, or_false] at member ⊢
        tauto
      · rintro x member a ⟨low, high⟩ ⟨low', high'⟩
        have away : x + 8 ≤ b / 4096 * 4096 ∨ b / 4096 * 4096 + 12 ≤ x := by
          by_cases same : x = b
          · subst same
            omega
          · apply core.node_header small _ heap
            simp only [nodes, List.mem_append, List.mem_cons, List.not_mem_nil, or_false] at member ⊢
            tauto
        omega
    · intro x
      rw [List.mem_append, List.mem_singleton, core.members i small x, without]
      constructor
      · rintro (⟨block', dead⟩ | rfl)
        · exact ⟨block', fun now => dead now.2⟩
        · exact ⟨block, fun now => now.1 rfl⟩
      · rintro ⟨block', dead⟩
        by_cases same : x = b
        · exact .inr same
        · exact .inl ⟨block', fun inside => dead ⟨same, inside⟩⟩
    · intro x different
      rw [without]
      exact and_iff_right different
    · obtain ⟨page, idx, member, inside', rfl⟩ := block
      have bounds := blockAt_bounds page inside'
      have page' : blockAt page i idx / 4096 = page := by omega
      rw [page'] at count ⊢
      have dead : blockAt page i idx ∉ live' := fun now => ((without _).mp now).1 rfl
      have back : freeCount page i (blockAt page i idx :: live') = freeCount page i live := by
        apply freeCount_congr
        intro k _
        rw [List.mem_cons, without]
        by_cases same : blockAt page i k = blockAt page i idx
        · rw [same]
          exact ⟨fun _ => used, fun _ => .inl rfl⟩
        · exact ⟨fun now => (now.resolve_left same).2, fun now => .inr ⟨same, now⟩⟩
      have more := freeCount_cons inside' dead
      have most := freeCount_le page i live'
      have few := Nat.div_le_self (PG_SIZE - ARENA_SIZE) (classSize i)
      rw [cnt_setCnt, count, ← back, ← more]
      unfold classBlocks at most
      unfold PG_SIZE ARENA_SIZE at most few
      omega

/-! Loops over the blocks of an arena. `steady` says that the header and the descriptor, which
`arena2block` reads again each time, are none of the bytes that the loop writes. -/

theorem unlinkArena_holds {plist : KList Nat} {list : List Nat} {a page i left : Nat} (idx : Nat) (holds : Holds m plist list)
    (fits : ∀ x ∈ plist.head :: list ++ [plist.tail], x + 8 ≤ 2 ^ 32)
    (linked : ∀ k, idx ≤ k → k < idx + left → blockAt page i k ∈ list)
    (steady : ∀ m', ChangesOnly (cells (plist.head :: list ++ [plist.tail])) m m' →
      ∀ k, idx ≤ k → k < idx + left → arena2block m' a k = blockAt page i k) :
    ∃ rest, Holds (unlinkArena a left idx m) plist rest ∧
      (∀ x, x ∈ rest ↔ x ∈ list ∧ ∀ k, idx ≤ k → k < idx + left → x ≠ blockAt page i k) ∧
      ChangesOnly (cells (plist.head :: list ++ [plist.tail])) m (unlinkArena a left idx m) := by
  induction left generalizing m list idx with
  | zero =>
    refine ⟨list, holds, ?_, ChangesOnly.refl _ m⟩
    intro x
    exact ⟨fun member => ⟨member, by omega⟩, fun both => both.1⟩
  | succ left ih =>
    have here : arena2block m a idx = blockAt page i idx := steady m (ChangesOnly.refl _ m) idx le_rfl (by omega)
    have distinct := holds_nodup holds
    obtain ⟨before, after, shape⟩ := List.append_of_mem (linked idx le_rfl (by omega))
    subst shape
    have removed := listRemove_holds holds
    have changes := listRemove_changes before holds fits
    have fewer : plist.head :: (before ++ after) ++ [plist.tail] ⊆
        plist.head :: (before ++ blockAt page i idx :: after) ++ [plist.tail] := by
      intro x member
      simp only [List.cons_append, List.mem_cons, List.mem_append, List.not_mem_nil, or_false] at member ⊢
      tauto
    have gone : blockAt page i idx ∉ before ++ after := (List.nodup_middle.mp distinct).notMem
    obtain ⟨rest, holds', members, changes'⟩ := ih (idx + 1) removed (fun x member => fits x (fewer member))
      (fun k low high => by
        have member := linked k (by omega) (by omega)
        simp only [List.mem_append, List.mem_cons] at member ⊢
        rcases member with first | same | later
        · exact .inl first
        · have index := blockAt_injective same
          omega
        · exact .inr later)
      (fun m' changes' k low high =>
        steady m' (changes.trans (changes'.mono (cells_mono fewer))) k (by omega) (by omega))
    rw [unlinkArena, here]
    refine ⟨rest, holds', ?_, changes.trans (changes'.mono (cells_mono fewer))⟩
    intro x
    rw [members]
    constructor
    · rintro ⟨member, away⟩
      have other : x ≠ blockAt page i idx := fun same => gone (same ▸ member)
      refine ⟨?_, ?_⟩
      · simp only [List.mem_append, List.mem_cons] at member ⊢
        tauto
      · intro k low high
        by_cases first : k = idx
        · rw [first]
          exact other
        · exact away k (by omega) (by omega)
    · rintro ⟨member, away⟩
      have other := away idx le_rfl (by omega)
      refine ⟨?_, fun k low high => away k (by omega) (by omega)⟩
      simp only [List.mem_append, List.mem_cons] at member ⊢
      tauto

theorem splitArena_holds {desc a left : Nat} {list : List Nat} (page i idx : Nat)
    (holds : Holds m (freeList desc) list)
    (fits : ∀ x ∈ (freeList desc).head :: list ++ [(freeList desc).tail], x + 8 ≤ 2 ^ 32)
    (room : ∀ k, idx ≤ k → k < idx + left → blockAt page i k + classSize i ≤ 2 ^ 32)
    (apart : ∀ k, idx ≤ k → k < idx + left → ∀ x ∈ (freeList desc).head :: list ++ [(freeList desc).tail],
      x + 8 ≤ blockAt page i k ∨ blockAt page i k + 8 ≤ x)
    (inside : ∀ k, idx ≤ k → k < idx + left → Set.Ico (blockAt page i k) (blockAt page i k + 8) ⊆ S)
    (sentinels : cells ((freeList desc).head :: list ++ [(freeList desc).tail]) ⊆ S)
    (steady : ∀ m', ChangesOnly S m m' → pMemBlock m' a = desc ∧
      ∀ k, idx ≤ k → k < idx + left → arena2block m' a k = blockAt page i k) :
    Holds (splitArena a left idx m) (freeList desc) (list ++ (List.range' idx left).map (blockAt page i)) ∧
      ChangesOnly S m (splitArena a left idx m) := by
  induction left generalizing m list idx with
  | zero =>
    rw [List.range'_zero, List.map_nil, List.append_nil]
    exact ⟨holds, ChangesOnly.refl S m⟩
  | succ left ih =>
    obtain ⟨pointer, blocks⟩ := steady m (ChangesOnly.refl S m)
    have here := blocks idx le_rfl (by omega)
    have positive := classSize_ge i
    have top := room idx le_rfl (by omega)
    have fits' : ∀ x ∈ blockAt page i idx :: (freeList desc).head :: list ++ [(freeList desc).tail], x + 8 ≤ 2 ^ 32 := by
      intro x member
      rcases List.mem_cons.mp member with rfl | node
      · omega
      · exact fits x node
    have appended := listAppend_holds holds (show blockAt page i idx < 2 ^ 32 by omega) (fun x member =>
      apart_of_gap (fits' _ List.mem_cons_self) (fits x member) (by
        have gap := apart idx le_rfl (by omega) x member
        omega))
    have cells_ : cells (blockAt page i idx :: (freeList desc).head :: list ++ [(freeList desc).tail]) ⊆ S := by
      rintro b ⟨x, member, low⟩
      rcases List.mem_cons.mp member with rfl | node
      · exact inside idx le_rfl (by omega) low
      · exact sentinels ⟨x, node, low⟩
    have changes := (listAppend_changes holds fits').mono cells_
    have longer : ∀ x, x ∈ (freeList desc).head :: (list ++ [blockAt page i idx]) ++ [(freeList desc).tail] →
        x ∈ blockAt page i idx :: (freeList desc).head :: list ++ [(freeList desc).tail] := by
      intro x member
      simp only [List.cons_append, List.mem_cons, List.mem_append, List.not_mem_nil, or_false] at member ⊢
      tauto
    have later := ih (idx + 1) appended (fun x member => fits' x (longer x member))
      (fun k low high => room k (by omega) (by omega))
      (fun k low high x member => by
        rcases List.mem_cons.mp (longer x member) with rfl | node
        · have gap := blockAt_gap page i (show idx < k by omega)
          omega
        · exact apart k (by omega) (by omega) x node)
      (fun k low high => inside k (by omega) (by omega))
      (fun b inside' => by
        obtain ⟨x, member, low⟩ := inside'
        exact cells_ ⟨x, longer x member, low⟩)
      (fun m' changes' => by
        obtain ⟨pointer', blocks'⟩ := steady m' (changes.trans changes')
        exact ⟨pointer', fun k low high => blocks' k (by omega) (by omega)⟩)
    rw [splitArena, pointer, here, List.range'_succ, List.map_cons]
    rw [List.append_assoc, List.singleton_append] at later
    exact ⟨later.1, changes.trans later.2⟩

/-! An arena is released, or made. -/

theorem arena2block_eq {page i k : Nat} (heap : InHeap page) (inside : k < classBlocks i)
    (pointer : pMemBlock m (page * 4096) = descAt mblock i) (size : blockSize m (descAt mblock i) = classSize i) :
    arena2block m (page * 4096) k = blockAt page i k := by
  have bounds := blockAt_bounds page inside
  have below := heap.2
  have positive := classSize_ge i
  rw [arena2block, pointer, size]
  unfold blockAt PG_SIZE ARENA_SIZE at *
  omega

theorem Core.block_address {page i idx : Nat} (core : Core mblock h live others free)
    (arena : (page, i) ∈ h.arenas) (inside : idx < classBlocks i) :
    arena2block h.mem (page * PG_SIZE) idx = blockAt page i idx :=
  arena2block_eq (core.arena_heap arena) inside (core.headers page i arena).1 (core.descs i (core.classes page i arena)).1

theorem IsBlock.cons {page i j x : Nat} {arenas : List (Nat × Nat)} :
    IsBlock ((page, i) :: arenas) j x ↔ IsBlock arenas j x ∨ j = i ∧ ∃ idx < classBlocks i, x = blockAt page i idx := by
  constructor
  · rintro ⟨q, idx, member, inside, rfl⟩
    rcases List.mem_cons.mp member with new | old
    · cases new
      exact .inr ⟨rfl, idx, inside, rfl⟩
    · exact .inl ⟨q, idx, old, inside, rfl⟩
  · rintro (⟨q, idx, member, inside, rfl⟩ | ⟨rfl, idx, inside, rfl⟩)
    · exact ⟨q, idx, List.mem_cons_of_mem _ member, inside, rfl⟩
    · exact ⟨page, idx, List.mem_cons_self, inside, rfl⟩

theorem IsBlock.filter {page j x : Nat} {arenas : List (Nat × Nat)} :
    IsBlock (arenas.filter (·.1 ≠ page)) j x ↔ IsBlock arenas j x ∧ x / 4096 ≠ page := by
  constructor
  · intro block
    have place := (List.mem_filter.mp block.place.1).2
    obtain ⟨q, idx, member, inside, rfl⟩ := block
    exact ⟨⟨q, idx, (List.mem_filter.mp member).1, inside, rfl⟩, of_decide_eq_true place⟩
  · rintro ⟨block, other⟩
    have place := block.place
    obtain ⟨q, idx, member, inside, rfl⟩ := block
    have bounds := blockAt_bounds q inside
    have positive := classSize_ge j
    have index : blockAt q j idx / 4096 = q := by omega
    rw [index] at other
    exact ⟨q, idx, List.mem_filter.mpr ⟨member, decide_eq_true other⟩, inside, rfl⟩

theorem Core.desc_nodes {i j a : Nat} (core : Core mblock h live others free) (small : i < MEM_BLOCK_CNT)
    (small' : j < MEM_BLOCK_CNT) (inside : a ∈ Set.Ico (descAt mblock j) (descAt mblock j + 8)) :
    a ∉ cells (nodes mblock free i) := by
  have low := core.desc_low small'
  obtain ⟨from_, upto⟩ := inside
  rintro ⟨y, node, low', high'⟩
  rcases core.node_cases small node with rfl | rfl | ⟨block', -⟩
  · unfold descAt at *
    omega
  · unfold descAt at *
    omega
  · have first' := (core.block_place block').1.1
    omega

/-- Without the arena of `page`, that page is claimed by nobody. -/
theorem Core.claimed_without {page i : Nat} {pages : Pages} {m : Memory} (core : Core mblock h live others free)
    (arena : (page, i) ∈ h.arenas) :
    claimed (removeArena (setPages h pages m) page) others ⊆ claimed h others \ pagesFrom page 1 := by
  have sub : heapPages (removeArena (setPages h pages m) page) ⊆ heapPages h := by
    intro q member
    rcases List.mem_append.mp member with small' | big
    · obtain ⟨a, inside, rfl⟩ := List.mem_map.mp small'
      exact List.mem_append_left _ (List.mem_map_of_mem (f := Prod.fst) (List.mem_filter.mp inside).1)
    · exact List.mem_append_right _ big
  intro q member
  have before : q ∈ claimed h others := by
    rcases List.mem_append.mp member with mine | other
    · exact List.mem_append_left _ (sub mine)
    · exact List.mem_append_right _ other
  refine ⟨before, ?_⟩
  rintro ⟨low, high⟩
  have same : q = page := by omega
  subst same
  have distinct := List.nodup_append.mp core.nodup
  have mine : q ∈ h.arenas.map Prod.fst := List.mem_map_of_mem (f := Prod.fst) arena
  rcases List.mem_append.mp member with inside | other
  · rcases List.mem_append.mp inside with small' | big
    · obtain ⟨a, inside', same⟩ := List.mem_map.mp small'
      exact of_decide_eq_true (List.mem_filter.mp inside').2 same
    · exact (List.nodup_append.mp distinct.1).2.2 q mine q big rfl
  · exact distinct.2.2 q (List.mem_append_left _ mine) q other rfl

/-- The blocks of an arena that goes leave the free list of their class. -/
theorem Core.members_drop {page i : Nat} {rest : List Nat} (core : Core mblock h live others free)
    (arena : (page, i) ∈ h.arenas)
    (members : ∀ x, x ∈ rest ↔ x ∈ free i ∧ ∀ k, 0 ≤ k → k < 0 + classBlocks i → x ≠ blockAt page i k) {j : Nat}
    (small : j < MEM_BLOCK_CNT) (x : Nat) :
    x ∈ Function.update free i rest j ↔ IsBlock (h.arenas.filter (·.1 ≠ page)) j x ∧ x ∉ live := by
  rw [IsBlock.filter]
  by_cases class_ : j = i
  · subst class_
    rw [Function.update_self, members, core.members j small x]
    constructor
    · rintro ⟨⟨block, dead⟩, away⟩
      refine ⟨⟨block, ?_⟩, dead⟩
      intro same
      obtain ⟨q, k, member, inside, rfl⟩ := block
      have bounds := blockAt_bounds q inside
      have positive := classSize_ge j
      have equal : q = page := by omega
      subst equal
      exact away k (by omega) (by omega) rfl
    · rintro ⟨⟨block, other⟩, dead⟩
      refine ⟨⟨block, dead⟩, ?_⟩
      rintro k - inside rfl
      have bounds := blockAt_bounds page (show k < classBlocks j by omega)
      have positive := classSize_ge j
      omega
  · rw [Function.update_of_ne class_, core.members j small x]
    constructor
    · rintro ⟨block, dead⟩
      refine ⟨⟨block, ?_⟩, dead⟩
      intro same
      exact class_ (core.class_unique (same ▸ block.place.1) arena)
    · rintro ⟨⟨block, -⟩, dead⟩
      exact ⟨block, dead⟩

theorem Core.header_nodes {page i a : Nat} (core : Core mblock h live others free) (small : i < MEM_BLOCK_CNT)
    (heap : InHeap page) (inside : a ∈ Set.Ico (page * 4096) (page * 4096 + 12)) : a ∉ cells (nodes mblock free i) := by
  rintro ⟨x, node, low, high⟩
  have gap := core.node_header small node heap
  obtain ⟨low', high'⟩ := Set.mem_Ico.mp inside
  omega

/-- An arena none of whose blocks is live goes back to the page layer; the others stay. -/
theorem Core.drop {page i : Nat} (core : Core mblock h live others free) (arena : (page, i) ∈ h.arenas)
    (dead : ∀ idx < classBlocks i, blockAt page i idx ∉ live) :
    ∃ pages m rest, dropArena h (page * 4096) = some (removeArena (setPages h pages m) page) ∧
      Core mblock (removeArena (setPages h pages m) page) live others (Function.update free i rest) ∧
      ChangesOnly (cells (nodes mblock free i)) h.mem m ∧ (∀ q, q ≠ page → pages.pte q = h.pages.pte q) ∧
      present (pages.pte page) = false := by
  have small := core.classes page i arena
  have heap := core.arena_heap arena
  obtain ⟨pointer, count, -⟩ := core.headers page i arena
  obtain ⟨size, number⟩ := core.descs i small
  unfold PG_SIZE at pointer count
  have whole : pagesFrom page 1 ⊆ claimed h others := by
    rintro q ⟨low, high⟩
    rw [show q = page by omega]
    exact List.mem_append_left _ (List.mem_append_left _ (List.mem_map_of_mem (f := Prod.fst) arena))
  obtain ⟨pages, released, wires, ptes, gone⟩ := pageRelease_wired core.wiring whole whole
  have steady : ∀ m', ChangesOnly (cells (nodes mblock free i)) h.mem m' →
      ∀ k, 0 ≤ k → k < 0 + classBlocks i → arena2block m' (page * 4096) k = blockAt page i k := by
    intro m' changes k _ inside
    have pointer' := (header_kept heap changes fun a member => core.header_nodes small heap member).1
    have size' := (core.descs_kept small changes fun a member => core.desc_nodes small small member).1
    unfold PG_SIZE at pointer'
    exact arena2block_eq heap (by omega) (pointer'.trans pointer) size'
  obtain ⟨rest, holds, members, changes⟩ := unlinkArena_holds 0 (core.lists i small)
    (fun x member => core.node_fits small member)
    (fun k _ inside => (core.members i small _).mpr ⟨⟨page, k, arena, by omega, rfl⟩, dead k (by omega)⟩) steady
  refine ⟨pages, unlinkArena (page * 4096) (classBlocks i) 0 h.mem, rest, ?_, ?_, changes,
    fun q other => ptes q (fun inside => other (by have := inside.1; have := inside.2; omega)),
    gone page ⟨le_rfl, by omega⟩⟩
  · have full : cnt h.mem (page * 4096) = classBlocks i := by rw [count, freeCount_full.mpr dead]
    have index : page * 4096 / PG_SIZE = page := Nat.mul_div_cancel _ (by decide)
    unfold PG_SIZE at released
    simp only [dropArena, pointer, number, if_pos full, released, Option.map_some, index]
  · generalize unlinkArena (page * 4096) (classBlocks i) 0 h.mem = m at holds changes
    have fewer : claimed (removeArena (setPages h pages m) page) others ⊆ claimed h others \ pagesFrom page 1 :=
      core.claimed_without arena
    refine ⟨core.placed, wires.weaken fewer fewer subset_rfl, ?_, ?_, core.counts, ?_, ?_, ?_, ?_, ?_⟩
    · apply List.Nodup.sublist _ core.nodup
      apply List.Sublist.append_right
      apply List.Sublist.append_right
      exact List.filter_sublist.map _
    · intro q j member
      exact core.classes q j (List.mem_filter.mp member).1
    · intro j small'
      exact core.descs_kept small' changes fun a inside => core.desc_nodes small small' inside
    · apply core.lists_update changes holds
      rintro j small' other x member a ⟨low, high⟩ ⟨y, node, low', high'⟩
      have gap := core.node_gap small' small member node (core.node_distinct small' small other member node)
      omega
    · intro j small' x
      exact core.members_drop arena members small' x
    · intro q j member
      have before := (List.mem_filter.mp member).1
      exact core.arena_kept before changes fun a inside => core.header_nodes small (core.arena_heap before) inside
    · intro q n member
      exact core.large_kept member changes fun a inside => core.header_nodes small (core.large_heap member) inside

/-- An arena with a live block is not full. -/
theorem Core.not_full {page i idx : Nat} (core : Core mblock h live others free) (arena : (page, i) ∈ h.arenas)
    (inside : idx < classBlocks i) (used : blockAt page i idx ∈ live) :
    cnt h.mem (page * 4096) ≠ blocksPerArena h.mem (pMemBlock h.mem (page * 4096)) := by
  obtain ⟨pointer, count, -⟩ := core.headers page i arena
  obtain ⟨-, number⟩ := core.descs i (core.classes page i arena)
  unfold PG_SIZE at pointer count
  rw [pointer, number, count, ne_eq, freeCount_full]
  exact fun dead => dead idx inside used

theorem Core.stay {page i idx : Nat} (core : Core mblock h live others free) (arena : (page, i) ∈ h.arenas)
    (inside : idx < classBlocks i) (used : blockAt page i idx ∈ live) : dropArena h (page * 4096) = some h :=
  if_neg (core.not_full arena inside used)

end KOS.HeapLayout
