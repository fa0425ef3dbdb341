import KOS.Clients
import KOS.HeapClients
import KOS.PageFrames

/-! How much more the heap can be given: a place in the virtual pool below the window of the page tables, and
free frames. With both, `sys_malloc` keeps what its callers rely on. -/

namespace KOS.HeapRoom
open KOS.ByteMemory KOS.LinkMemory KOS.KernelList KOS.PageBitmap KOS.Paging KOS.PageWiring KOS.PageCalls KOS.FirstFit
  KOS.BitmapFit KOS.PageFrames KOS.Clients KOS.Heap KOS.HeapLayout KOS.HeapRun KOS.Machine

/-! The virtual pool. -/

/-- From some page of the heap on, `n` pages are not reserved. -/
def Vacant (vp : VPool) (n : Nat) : Prop :=
  ∃ w, w + n ≤ 0x3FB00 ∧ ∀ j, w ≤ j → j < w + n → bitmapCheck vp.vaddrBitmap j = false

variable {k k' : Pages} {m n : Nat}

theorem Vacant.mono {vp : VPool} (vacant : Vacant vp n) (fewer : m ≤ n) : Vacant vp m := by
  obtain ⟨w, inside, clear⟩ := vacant
  exact ⟨w, by omega, fun j low high => clear j low (by omega)⟩

theorem Vacant.released {vp vp' : VPool} (vacant : Vacant vp n)
    (fewer : ∀ j, bitmapCheck vp.vaddrBitmap j = false → bitmapCheck vp'.vaddrBitmap j = false) : Vacant vp' n := by
  obtain ⟨w, inside, clear⟩ := vacant
  exact ⟨w, inside, fun j low high => fewer j (clear j low high)⟩

/-- The first fit does not lie behind a place that is known. -/
theorem Vacant.first_le (laid : Laid k) {w i : Nat} (inside : w + m ≤ 0x3FB00)
    (clear : ∀ j, w ≤ j → j < w + m → bitmapCheck k.vp.vaddrBitmap j = false) (first : FirstClear k.vp m i) : i ≤ w := by
  apply first.least w
  have len := laid.len
  exact ⟨by omega, clear⟩

theorem Vacant.request (vacant : Vacant k.vp n) (laid : Laid k) (positive : 0 < m) (fits : m ≤ n) : Request k.vp 0 m := by
  obtain ⟨w, inside, clear⟩ := vacant.mono fits
  refine ⟨positive, ?_, fun some => absurd rfl some⟩
  intro _ i found
  have first := (bitmapAcquire_first positive).1 i found
  have before := Vacant.first_le laid inside clear first
  omega

theorem Vacant.reserve (vacant : Vacant k.vp (m + n)) (laid : Laid k) (positive : 0 < m) :
    ∃ i, FirstClear k.vp m i ∧ i + m ≤ 0x3FB00 ∧ (vaddrAcquire k.vp 0 m).1 = (K_HEAP_START + i * PG_SIZE) % 2 ^ 32 ∧
      Vacant (vaddrAcquire k.vp 0 m).2 n := by
  obtain ⟨w, inside, clear⟩ := vacant
  have clear' : ∀ j, w ≤ j → j < w + m → bitmapCheck k.vp.vaddrBitmap j = false :=
    fun j low high => clear j low (by omega)
  rcases vaddrAcquire_first k.vp positive with ⟨i, first, reserved⟩ | ⟨none, -⟩
  · have before := Vacant.first_le laid (by omega) clear' first
    rw [reserved, laid.start]
    refine ⟨i, first, by omega, rfl, max w (i + m), by omega, ?_⟩
    intro j low high
    have outside : ¬(i ≤ j ∧ j < i + m) := by omega
    show bitmapCheck (setRun k.vp.vaddrBitmap i m) j = false
    rw [bitmapCheck_setRun, decide_eq_false outside, Bool.false_or]
    exact clear j (by omega) (by omega)
  · have len := laid.len
    have run : Run (bitmapCheck k.vp.vaddrBitmap) (8 * k.vp.vaddrBitmap.len) m w := ⟨by omega, clear'⟩
    obtain ⟨i, first⟩ := run.exists_first
    exact absurd first (none i)

/-! Frames. -/

/-- With the page tables there, the loop takes one frame a page. -/
theorem acquireLoop_frames (vaddrIdx : Nat) (laid : Laid k)
    (heap : ∀ j < n, InHeap ((vaddrIdx + j * PG_SIZE) % 2 ^ 32 / PG_SIZE)) (small : vaddrIdx < 2 ^ 32)
    (enough : n ≤ freeFrames k.pp) : freeFrames (acquireLoop k vaddrIdx n).2.pp + n = freeFrames k.pp := by
  induction n generalizing k vaddrIdx with
  | zero => rfl
  | succ n ih =>
    obtain ⟨some, pooled, taken⟩ := palloc_takes laid.pooled (show 0 < freeFrames k.pp by omega)
    have here : InHeap (vaddrIdx / PG_SIZE) := by
      have first := heap 0 (Nat.succ_pos n)
      rwa [Nat.zero_mul, Nat.add_zero, Nat.mod_eq_of_lt small] at first
    have handed : Laid { k with pp := (palloc k.pp).2 } := laid.setPp pooled
    have added := handed.pageTableAdd vaddrIdx (palloc k.pp).1
    have entries := handed.pageTableAdd_heap here (palloc k.pp).1
    have pp : (pageTableAdd { k with pp := (palloc k.pp).2 } vaddrIdx (palloc k.pp).1).pp = (palloc k.pp).2 := by
      rw [entries]
    have later := ih (k := pageTableAdd { k with pp := (palloc k.pp).2 } vaddrIdx (palloc k.pp).1)
      ((vaddrIdx + PG_SIZE) % 2 ^ 32) added
      (by
        intro j below
        have next := heap (j + 1) (by omega)
        rwa [show (vaddrIdx + (j + 1) * PG_SIZE) % 2 ^ 32 = ((vaddrIdx + PG_SIZE) % 2 ^ 32 + j * PG_SIZE) % 2 ^ 32 by
          unfold PG_SIZE; omega] at next)
      (Nat.mod_lt _ (by decide)) (by rw [pp]; omega)
    rw [pp] at later
    simp only [acquireLoop, if_neg some]
    omega

/-- The virtual pool has a place for the pages, so it is the frames that decide. -/
theorem pageAcquire_null_iff (laid : Laid k) (vacant : Vacant k.vp n) (positive : 0 < m) (fits : m ≤ n) :
    (pageAcquire k 0 m).1 = 0 ↔ freeFrames k.pp < m := by
  obtain ⟨i, first, inside, start, -⟩ := Vacant.reserve (n := 0) (vacant.mono fits) laid positive
  have needed := laid.framesNeeded first
  have result := pageAcquire_result laid.pooled 0 m
  rw [start, needed] at result
  rw [result]
  by_cases enough : m ≤ freeFrames k.pp
  · rw [if_pos enough]
    unfold K_HEAP_START PG_SIZE
    omega
  · rw [if_neg enough]
    exact iff_of_true rfl (by omega)

theorem pageAcquire_frames (laid : Laid k) (vacant : Vacant k.vp n) (positive : 0 < m) (fits : m ≤ n)
    (enough : m ≤ freeFrames k.pp) : freeFrames (pageAcquire k 0 m).2.pp + m = freeFrames k.pp := by
  obtain ⟨i, first, inside, start, -⟩ := Vacant.reserve (n := 0) (vacant.mono fits) laid positive
  have some : (vaddrAcquire k.vp 0 m).1 ≠ 0 := by
    rw [start]
    unfold K_HEAP_START PG_SIZE
    omega
  have place : (K_HEAP_START + i * PG_SIZE) % 2 ^ 32 = K_HEAP_START + i * PG_SIZE := by
    unfold K_HEAP_START PG_SIZE
    omega
  have keeps := vaddrAcquire_keeps k.vp 0 m
  have loop := acquireLoop_frames (k := { k with vp := (vaddrAcquire k.vp 0 m).2 })
    (vaddrAcquire k.vp 0 m).1 (laid.setVp keeps.1 keeps.2)
    (by
      intro j below
      rw [start, place]
      unfold InHeap K_HEAP_START PG_SIZE
      omega)
    (by rw [start]; exact Nat.mod_lt _ (by decide)) enough
  rw [← loop, pageAcquire]
  simp only [if_neg some]
  split_ifs
  · rfl
  · rfl

/-- Without frames a call leaves the pool of frames as it is. -/
theorem pageAcquire_starved (starved : freeFrames k.pp = 0) (vaddr : Nat) (positive : 0 < m) :
    (pageAcquire k vaddr m).1 = 0 ∧ (pageAcquire k vaddr m).2.pp = k.pp := by
  obtain ⟨m, rfl⟩ := Nat.exists_eq_succ_of_ne_zero positive.ne'
  have full : palloc k.pp = (0, k.pp) := palloc_full starved
  unfold pageAcquire
  by_cases null : (vaddrAcquire k.vp vaddr (m + 1)).1 = 0
  · simp only [if_pos null]
    exact ⟨trivial, trivial⟩
  · simp [null, acquireLoop, full]

/-! A release. -/

/-- The pools are where they were, and what was free is free. -/
structure Freer (k k' : Pages) : Prop where
  laid : Laid k'
  vp : ∀ j, bitmapCheck k.vp.vaddrBitmap j = false → bitmapCheck k'.vp.vaddrBitmap j = false
  pp : freeFrames k.pp ≤ freeFrames k'.pp

theorem Freer.trans {k'' : Pages} (first : Freer k k') (second : Freer k' k'') : Freer k k'' :=
  ⟨second.laid, fun j clear => second.vp j (first.vp j clear), first.pp.trans second.pp⟩

theorem bitmapRelease_freer {btmp btmp' : Bitmap} {i : Nat} (released : bitmapRelease btmp i n = some btmp') (j : Nat)
    (clear : bitmapCheck btmp j = false) : bitmapCheck btmp' j = false := by
  rw [(bitmapRelease_some released).2 j, clear]
  exact Bool.and_false _

theorem releaseLoop_freer {vaddrIdx : Nat} (laid : Laid k) (ran : releaseLoop k vaddrIdx n = some k') : Freer k k' := by
  induction n generalizing k vaddrIdx with
  | zero =>
    cases ran
    exact ⟨laid, fun _ => id, le_rfl⟩
  | succ n ih =>
    obtain ⟨pp, freed, rest⟩ := Option.bind_eq_some_iff.mp ran
    obtain ⟨btmp, released, rfl⟩ := Option.map_eq_some_iff.mp freed
    have len := (bitmapRelease_some released).1
    have pooled : Pooled { k.pp with paddrBitmap := btmp } := by
      refine ⟨laid.pooled.nonzero, ?_⟩
      show _ + 8 * btmp.len * PG_SIZE ≤ _
      rw [len]
      exact laid.pooled.fits
    have more : freeFrames k.pp ≤ freeFrames { k.pp with paddrBitmap := btmp } := by
      unfold freeFrames
      rw [len]
      exact freeCount_mono (bitmapRelease_freer released)
    have first : Freer k (pageTableRemove { k with pp := { k.pp with paddrBitmap := btmp } } vaddrIdx) :=
      ⟨⟨laid.start, laid.len, pooled, laid.installed⟩, fun _ => id, more⟩
    exact first.trans (ih first.laid rest)

theorem pageRelease_freer {vaddr : Nat} (laid : Laid k) (ran : pageRelease k vaddr n = some k') : Freer k k' := by
  obtain ⟨k'', loop, rest⟩ := Option.bind_eq_some_iff.mp ran
  obtain ⟨vp, released, rfl⟩ := Option.map_eq_some_iff.mp rest
  obtain ⟨btmp, cleared, rfl⟩ := Option.map_eq_some_iff.mp released
  have freer := releaseLoop_freer laid loop
  refine freer.trans ⟨freer.laid.setVp rfl (bitmapRelease_some cleared).1, ?_, le_rfl⟩
  exact bitmapRelease_freer cleared

/-! The calls of the heap. -/

variable {mblock : Nat} {fresh : Sys → Memory} {s s' : Sys}

/-- `sys_malloc`; `fresh` is what the frames hold that it maps. -/
def malloc (mblock : Nat) (fresh : Sys → Memory) (s : Sys) (size : Nat) : Nat × Sys :=
  let (p, h) := sysMalloc s.heap mblock size (fresh s)
  (p, if p = 0 then setHeap s h else hold (setHeap s h) p size)

def free (s : Sys) (p : Nat) : Option Sys := (sysFree s.heap p).map fun h => letGo (setHeap s h) p

def heapCalls (mblock : Nat) (fresh : Sys → Memory) : Calls Sys where
  mem s := s.heap.mem
  setMem s m := setHeap s (setMem s.heap m)
  sysMalloc := malloc mblock fresh
  sysFree := free

theorem malloc_step (size : Nat) : step mblock s (.malloc size (fresh s)) = some (malloc mblock fresh s size).2 := rfl

theorem requested_eq {h : HeapState} {size : Nat} (asked : m ∈ requested h mblock size) : m = pagesFor size := by
  unfold requested at asked
  unfold pagesFor
  split_ifs at asked ⊢
  · exact (Option.some.inj asked).symm
  · exact (Option.some.inj asked).symm
  · cases asked

/-- The pools change as the one call of `page_acquire` changes them, if there is one. -/
theorem sysMalloc_pages (h : HeapState) (size : Nat) (m : Memory) :
    (requested h mblock size = none ∧ (sysMalloc h mblock size m).2.pages = h.pages) ∨
      requested h mblock size = some (pagesFor size) ∧
        (sysMalloc h mblock size m).2.pages = (pageAcquire h.pages 0 (pagesFor size)).2 := by
  unfold requested sysMalloc pagesFor
  by_cases big : 1024 < size
  · right
    simp only [if_pos big, true_and]
    split_ifs
    · rfl
    · rfl
  · simp only [if_neg big]
    unfold memAcquire growArena
    dsimp only
    by_cases empty : listEmpty h.mem (freeList (descAt mblock (findClass h.mem mblock size MEM_BLOCK_CNT 0))) = true
    · right
      simp only [if_pos empty, true_and]
      by_cases null : (pageAcquire h.pages 0 1).1 = 0
      · simp only [if_pos null]
        rfl
      · simp only [if_neg null]
        rfl
    · left
      simp only [if_neg empty, true_and]
      rfl

theorem sysMalloc_null {h : HeapState} {size : Nat} (m : Memory) (asked : n ∈ requested h mblock size)
    (null : (pageAcquire h.pages 0 n).1 = 0) : (sysMalloc h mblock size m).1 = 0 := by
  unfold requested at asked
  unfold sysMalloc
  split_ifs at asked ⊢ with big empty
  · cases asked
    simp only [if_pos null]
  · cases asked
    unfold memAcquire growArena
    simp only [if_pos empty, if_pos null]
    rfl
  · cases asked

theorem sysFree_freer {h h' : HeapState} {p : Nat} (laid : Laid h.pages) (freed : sysFree h p = some h') :
    Freer h.pages h'.pages := by
  have same : Freer h.pages h.pages := ⟨laid, fun _ => id, le_rfl⟩
  unfold sysFree at freed
  dsimp only at freed
  split_ifs at freed
  · obtain ⟨pages, released, rfl⟩ := Option.map_eq_some_iff.mp freed
    exact pageRelease_freer laid released
  · unfold memRelease dropArena at freed
    dsimp only at freed
    split_ifs at freed
    · obtain ⟨pages, released, rfl⟩ := Option.map_eq_some_iff.mp freed
      exact pageRelease_freer laid released
    · cases freed
      exact same

/-- The bookkeeping is right, and `n` pages have a place in the virtual pool. -/
structure Whole (mblock : Nat) (s : Sys) (n : Nat) : Prop where
  inv : Inv mblock s
  laid : Laid s.heap.pages
  vacant : Vacant s.heap.pages.vp n

theorem Whole.mono (whole : Whole mblock s n) (fewer : m ≤ n) : Whole mblock s m :=
  ⟨whole.inv, whole.laid, whole.vacant.mono fewer⟩

/-- `pool_init` leaves every page of the virtual pool free. -/
theorem poolInit_vacant (k : Pages) (memTotalSize : Nat) (few : n ≤ 0x3FB00) : Vacant (poolInit k memTotalSize).vp n := by
  refine ⟨0, by omega, ?_⟩
  intro j _ below
  have byte : j / 8 < 0x8000 := by omega
  simp [poolInit, bitmapCheck, bitmapReset, bitmapInit, byte]

theorem booted_whole (few : n ≤ 0x3FB00) : Whole kMemBlock booted n where
  inv := booted_start.inv
  laid := poolInit_laid _ _ fun _ _ => entry_present (by decide : 0 % PG_SIZE = 0)
  vacant := poolInit_vacant _ _ few

theorem booted_frames : freeFrames booted.heap.pages.pp = 128 := by decide +kernel

variable {size : Nat}

theorem Whole.requests (whole : Whole mblock s (pagesFor size + n)) (limit : size ≤ MAX_SIZE) :
    ∀ m ∈ requested s.heap mblock size, Request s.heap.pages.vp 0 m := by
  intro m asked
  rw [requested_eq asked]
  exact whole.vacant.request whole.laid (pagesFor_pos limit) (Nat.le_add_right _ n)

theorem Whole.sysMalloc (whole : Whole mblock s (pagesFor size + n)) (limit : size ≤ MAX_SIZE) (m : Memory) :
    Malloced mblock s.heap (held s) s.others size (Heap.sysMalloc s.heap mblock size m) :=
  whole.inv.sysMalloc m limit (whole.requests limit)

theorem malloc_pages (fresh : Sys → Memory) (s : Sys) (size : Nat) :
    (malloc mblock fresh s size).2.heap.pages = (sysMalloc s.heap mblock size (fresh s)).2.pages := by
  unfold malloc
  dsimp only
  split_ifs
  · rfl
  · rfl

theorem Whole.malloc (whole : Whole mblock s (pagesFor size + n)) (limit : size ≤ MAX_SIZE) :
    Whole mblock (malloc mblock fresh s size).2 n := by
  have positive := pagesFor_pos limit
  refine ⟨whole.inv.malloc limit (whole.requests limit) (malloc_step size), ?_, ?_⟩
  · rw [malloc_pages]
    rcases sysMalloc_pages s.heap size (fresh s) with ⟨-, same⟩ | ⟨-, acquired⟩
    · rw [same]
      exact whole.laid
    · rw [acquired]
      exact whole.laid.pageAcquire 0 _
  · rw [malloc_pages]
    rcases sysMalloc_pages s.heap size (fresh s) with ⟨-, same⟩ | ⟨-, acquired⟩
    · rw [same]
      exact whole.vacant.mono (Nat.le_add_left n _)
    · rw [acquired, pageAcquire_vp]
      obtain ⟨i, -, -, -, left⟩ := whole.vacant.reserve whole.laid positive
      exact left

variable (fresh) in
/-- A call gets NULL exactly if it asks for more pages than there are frames. -/
theorem Whole.malloc_null_iff (whole : Whole mblock s (pagesFor size + n)) (limit : size ≤ MAX_SIZE) :
    (HeapRoom.malloc mblock fresh s size).1 = 0 ↔
      requested s.heap mblock size ≠ none ∧ freeFrames s.heap.pages.pp < pagesFor size := by
  have frames := pageAcquire_null_iff whole.laid whole.vacant (pagesFor_pos limit) (Nat.le_add_right _ n)
  rw [← frames]
  constructor
  · intro null
    have outcome := whole.sysMalloc limit (fresh s)
    change (Heap.sysMalloc s.heap mblock size (fresh s)).1 = 0 at null
    generalize Heap.sysMalloc s.heap mblock size (fresh s) = result at outcome null
    cases outcome with
    | failed h refused =>
      obtain ⟨m, asked, refused⟩ := refused
      rw [requested_eq asked] at refused
      rw [Option.mem_def.mp asked]
      exact ⟨Option.some_ne_none m, refused⟩
    | granted p h some => exact absurd null some
  · rintro ⟨asks, null⟩
    obtain ⟨m, asked⟩ := Option.ne_none_iff_exists'.mp asks
    have same := requested_eq asked
    subst same
    exact sysMalloc_null (fresh s) asked null

theorem Whole.malloc_frames (whole : Whole mblock s (pagesFor size + n)) (limit : size ≤ MAX_SIZE)
    (enough : pagesFor size ≤ freeFrames s.heap.pages.pp) :
    freeFrames s.heap.pages.pp ≤ freeFrames (HeapRoom.malloc mblock fresh s size).2.heap.pages.pp + pagesFor size := by
  rw [malloc_pages]
  rcases sysMalloc_pages s.heap size (fresh s) with ⟨-, same⟩ | ⟨-, acquired⟩
  · rw [same]
    exact Nat.le_add_right _ _
  · rw [acquired, pageAcquire_frames whole.laid whole.vacant (pagesFor_pos limit) (Nat.le_add_right _ n) enough]

theorem reused_frames (reused : requested s.heap mblock size = none) :
    freeFrames (HeapRoom.malloc mblock fresh s size).2.heap.pages.pp = freeFrames s.heap.pages.pp := by
  rw [malloc_pages]
  rcases sysMalloc_pages s.heap size (fresh s) with ⟨-, same⟩ | ⟨asked, -⟩
  · rw [same]
  · rw [reused] at asked
    cases asked

/-- Without a frame, no call changes that. -/
theorem malloc_starved (limit : size ≤ MAX_SIZE) (starved : freeFrames s.heap.pages.pp = 0) :
    freeFrames (malloc mblock fresh s size).2.heap.pages.pp = 0 := by
  rw [malloc_pages]
  rcases sysMalloc_pages s.heap size (fresh s) with ⟨-, same⟩ | ⟨-, acquired⟩
  · rw [same]
    exact starved
  · rw [acquired, (pageAcquire_starved starved 0 (pagesFor_pos limit)).2]
    exact starved

/-- A block that is not NULL is new, and the blocks that were out keep their bytes. -/
theorem Whole.malloc_some (whole : Whole mblock s (pagesFor size + n)) (limit : size ≤ MAX_SIZE)
    (some : (HeapRoom.malloc mblock fresh s size).1 ≠ 0) :
    (HeapRoom.malloc mblock fresh s size).1 ∉ held s ∧
      (HeapRoom.malloc mblock fresh s size).2.live = ((HeapRoom.malloc mblock fresh s size).1, size) :: s.live := by
  have outcome := whole.sysMalloc limit (fresh s)
  unfold HeapRoom.malloc at some ⊢
  dsimp only at some ⊢
  generalize Heap.sysMalloc s.heap mblock size (fresh s) = result at outcome some ⊢
  cases outcome with
  | failed => exact absurd rfl some
  | granted p h some' core placed new =>
    rw [if_neg some']
    exact ⟨new, rfl⟩

theorem malloc_none (null : (HeapRoom.malloc mblock fresh s size).1 = 0) :
    (HeapRoom.malloc mblock fresh s size).2.live = s.live := by
  unfold HeapRoom.malloc at null ⊢
  dsimp only at null ⊢
  rw [if_pos null]
  rfl

theorem Whole.malloc_kept (whole : Whole mblock s (pagesFor size + n)) (limit : size ≤ MAX_SIZE) :
    ∀ b ∈ s.live, ∀ a ∈ bytes b, (HeapRoom.malloc mblock fresh s size).2.heap.mem a = s.heap.mem a := by
  intro b live a inside
  have within : a ∈ Extent s.heap b.1 := (whole.inv.placed b live).extent inside.1 inside.2
  have used : b.1 ∈ held s := List.mem_map_of_mem live
  have outcome := whole.sysMalloc limit (fresh s)
  unfold HeapRoom.malloc
  dsimp only
  generalize Heap.sysMalloc s.heap mblock size (fresh s) = result at outcome ⊢
  cases outcome with
  | failed h null core arenas large kept =>
    rw [if_pos rfl]
    exact kept b.1 used a within
  | granted p h some core placed new arenas large reused zero kept =>
    rw [if_neg some]
    exact kept b.1 used a within

theorem Whole.free {p : Nat} (whole : Whole mblock s n) (live : p ∈ held s) :
    ∃ s', HeapRoom.free s p = some s' ∧ Whole mblock s' n ∧ s'.live = s.live.filter (·.1 ≠ p) ∧
      freeFrames s.heap.pages.pp ≤ freeFrames s'.heap.pages.pp ∧
        ∀ b ∈ s'.live, ∀ a ∈ bytes b, s'.heap.mem a = s.heap.mem a := by
  obtain ⟨h, freed, outcome⟩ := whole.inv.sysFree live
  have ran : HeapRoom.free s p = some (letGo (setHeap s h) p) := by
    unfold HeapRoom.free
    rw [freed]
    rfl
  have freer := sysFree_freer whole.laid freed
  refine ⟨_, ran, ⟨whole.inv.free live ran, freer.laid, whole.vacant.released freer.vp⟩, rfl, freer.pp, ?_⟩
  intro b left a inside
  have old : b ∈ s.live := (List.mem_filter.mp left).1
  exact outcome.kept b.1 (List.mem_map_of_mem left) a ((whole.inv.placed b old).extent inside.1 inside.2)

/-! The blocks that a call can get without a page. -/

/-- A block of an arena of the class that nobody holds. -/
def FreeBlock (s : Sys) (i x : Nat) : Prop := IsBlock s.heap.arenas i x ∧ x ∉ held s

/-- The class of a size. -/
def classFrom (size : Nat) : (left idx : Nat) → Nat
  | 0, idx => idx
  | left + 1, idx => if size ≤ classSize idx then idx else classFrom size left (idx + 1)

def classOf (size : Nat) : Nat := classFrom size MEM_BLOCK_CNT 0

theorem findClass_eq {m : Memory} {left idx : Nat} (descs : ∀ i < MEM_BLOCK_CNT, blockSize m (descAt mblock i) = classSize i)
    (inside : idx + left ≤ MEM_BLOCK_CNT) : findClass m mblock size left idx = classFrom size left idx := by
  induction left generalizing idx with
  | zero => rfl
  | succ left ih => rw [findClass, classFrom, descs idx (by omega), ih (by omega)]

theorem Whole.findClass (whole : Whole mblock s n) : Heap.findClass s.heap.mem mblock size MEM_BLOCK_CNT 0 = classOf size := by
  obtain ⟨free, core⟩ := whole.inv.core
  exact findClass_eq (fun i small => (core.descs i small).1) (by decide)

theorem Whole.classOf_small (whole : Whole mblock s n) (little : size ≤ 1024) : classOf size < MEM_BLOCK_CNT := by
  obtain ⟨free, core⟩ := whole.inv.core
  rw [← whole.findClass]
  exact (findClass_spec (fun i small => (core.descs i small).1) little rfl (by decide)).1

/-- A call needs no page exactly if its class has a free block. -/
theorem Whole.requested_none (whole : Whole mblock s n) :
    requested s.heap mblock size = none ↔ size ≤ 1024 ∧ ∃ x, FreeBlock s (classOf size) x := by
  obtain ⟨free, core⟩ := whole.inv.core
  unfold requested
  rw [whole.findClass]
  by_cases big : 1024 < size
  · rw [if_pos big]
    exact iff_of_false nofun (fun part => by omega)
  · have small := whole.classOf_small (show size ≤ 1024 by omega)
    have empty := listEmpty_iff (core.lists _ small) not_apart_self
    have members : free (classOf size) ≠ [] ↔ ∃ x, FreeBlock s (classOf size) x := by
      rw [ne_eq, List.eq_nil_iff_forall_not_mem, not_forall_not]
      exact exists_congr (core.members _ small)
    rw [if_neg big, ← members, ne_eq, ← empty]
    by_cases none : listEmpty s.heap.mem (freeList (descAt mblock (classOf size))) = true
    · rw [if_pos none]
      exact iff_of_false nofun (fun some => some.2 none)
    · rw [if_neg none]
      exact iff_of_true rfl ⟨by omega, none⟩

theorem FreeBlock.class_unique {i j x : Nat} (whole : Whole mblock s n) (first : FreeBlock s i x) (second : FreeBlock s j x) :
    i = j := by
  obtain ⟨free, core⟩ := whole.inv.core
  exact core.class_unique first.1.place.1 second.1.place.1

/-- A refused call leaves every free block. -/
theorem Whole.refused_blocks (whole : Whole mblock s (pagesFor size + n)) (limit : size ≤ MAX_SIZE)
    (null : (HeapRoom.malloc mblock fresh s size).1 = 0) (i x : Nat) :
    FreeBlock (HeapRoom.malloc mblock fresh s size).2 i x ↔ FreeBlock s i x := by
  have outcome := whole.sysMalloc limit (fresh s)
  unfold HeapRoom.malloc at null ⊢
  dsimp only at null ⊢
  generalize Heap.sysMalloc s.heap mblock size (fresh s) = result at outcome null ⊢
  cases outcome with
  | failed h refused core arenas large kept =>
    rw [if_pos rfl]
    unfold FreeBlock
    rw [show (setHeap s h).heap.arenas = s.heap.arenas from arenas]
    rfl
  | granted p h some => exact absurd null some

variable (fresh) in
/-- Without a page the block is a free one, and the others stay. -/
theorem Whole.reused_blocks (whole : Whole mblock s (pagesFor size + n)) (limit : size ≤ MAX_SIZE)
    (reused : requested s.heap mblock size = none) :
    FreeBlock s (classOf size) (HeapRoom.malloc mblock fresh s size).1 ∧
      ∀ i x, FreeBlock (HeapRoom.malloc mblock fresh s size).2 i x ↔
        FreeBlock s i x ∧ x ≠ (HeapRoom.malloc mblock fresh s size).1 := by
  have little := (whole.requested_none.mp reused).1
  have outcome := whole.sysMalloc limit (fresh s)
  unfold HeapRoom.malloc
  dsimp only
  generalize Heap.sysMalloc s.heap mblock size (fresh s) = result at outcome ⊢
  cases outcome with
  | failed h refused =>
    obtain ⟨m, asked, -⟩ := refused
    rw [reused] at asked
    cases asked
  | granted p h some core placed new arenas large used zero kept big part =>
    obtain ⟨-, i, class_, block, -, cases_⟩ := part little
    have same : h.arenas = s.heap.arenas := by
      rcases cases_ with ⟨-, same⟩ | ⟨asked, -⟩
      · exact same
      · rw [reused] at asked
        cases asked
    rw [whole.findClass] at class_
    subst class_
    rw [same] at block
    rw [if_neg some]
    refine ⟨⟨block, new⟩, ?_⟩
    intro i x
    unfold FreeBlock
    rw [show (hold (setHeap s h) p size).heap.arenas = s.heap.arenas from same,
      show held (hold (setHeap s h) p size) = p :: held s from rfl, List.mem_cons, not_or]
    constructor
    · rintro ⟨block, other, free⟩
      exact ⟨⟨block, free⟩, other⟩
    · rintro ⟨⟨block, free⟩, other⟩
      exact ⟨block, other, free⟩

variable (fresh) in
/-- A page that a call gets for small blocks has more of them than one. -/
theorem Whole.new_blocks (whole : Whole mblock s (pagesFor size + n)) (little : size ≤ 1024) (more : 1 < classBlocks (classOf size))
    (asked : requested s.heap mblock size ≠ none) (some : (HeapRoom.malloc mblock fresh s size).1 ≠ 0) :
    ∃ x, FreeBlock (HeapRoom.malloc mblock fresh s size).2 (classOf size) x := by
  have outcome := whole.sysMalloc (little.trans (by decide)) (fresh s)
  unfold HeapRoom.malloc at some ⊢
  dsimp only at some ⊢
  generalize Heap.sysMalloc s.heap mblock size (fresh s) = result at outcome some ⊢
  cases outcome with
  | failed => exact absurd rfl some
  | granted p h some' core placed new arenas large used zero kept big part =>
    obtain ⟨-, i, class_, ⟨page, idx, member, inside, at_⟩, -, cases_⟩ := part little
    rw [whole.findClass] at class_
    subst class_
    have fresh_ : p / 4096 ∉ claimed s.heap s.others := by
      rcases cases_ with ⟨none, -⟩ | ⟨-, fresh_⟩
      · exact absurd none asked
      · exact fresh_
    obtain ⟨other, inside', different⟩ : ∃ k < classBlocks (classOf size), k ≠ idx := by
      by_cases zero : idx = 0
      · exact ⟨1, more, by omega⟩
      · exact ⟨0, by omega, by omega⟩
    rw [if_neg some]
    refine ⟨blockAt page (classOf size) other, ⟨page, other, member, inside', rfl⟩, ?_⟩
    have bounds := blockAt_bounds page inside
    have bounds' := blockAt_bounds page inside'
    have positive := classSize_ge (classOf size)
    rw [show held (hold (setHeap s h) p size) = p :: held s from rfl, List.mem_cons]
    rintro (same | old)
    · exact different (blockAt_injective (same.trans at_))
    · have owned := whole.inv.owned _ old
      apply fresh_
      rw [show p / 4096 = blockAt page (classOf size) other / 4096 by omega]
      exact List.mem_append_left _ owned

/-! Writes of the clients. -/

/-- What lies below the heap, without the descriptors. -/
def below (mblock : Nat) : Set Nat := {a | a < K_HEAP_START ∧ a ∉ Set.Ico mblock (mblock + 48 * MEM_BLOCK_CNT)}

theorem below_booted {a : Nat} (low : a < 0xC0010000 ∨ 0xC0011000 ≤ a ∧ a < 0xC0100000) : a ∈ below kMemBlock := by
  unfold below kMemBlock K_HEAP_START MEM_BLOCK_CNT
  refine ⟨by omega, ?_⟩
  rintro ⟨first, last⟩
  omega

theorem Whole.block_heap (whole : Whole mblock s n) {b : Nat × Nat} (live : b ∈ s.live) {a : Nat} (inside : a ∈ bytes b) :
    a ∈ Extent s.heap b.1 ∧ InHeap (a / 4096) ∧ a ∉ HeapBytes mblock s.heap (held s) := by
  obtain ⟨free, core⟩ := whole.inv.core
  have within : a ∈ Extent s.heap b.1 := (whole.inv.placed b live).extent inside.1 inside.2
  refine ⟨within, core.extent_heap within, ?_⟩
  intro used
  exact core.extent_own (List.mem_map_of_mem live) within (core.heapBytes_bookkeeping used)

theorem Whole.block_fits (whole : Whole mblock s n) {b : Nat × Nat} (live : b ∈ s.live) : b.1 ≠ 0 ∧ b.1 + b.2 ≤ 2 ^ 32 := by
  obtain ⟨free, core⟩ := whole.inv.core
  rcases whole.inv.placed b live with ⟨i, block, room⟩ | ⟨page, n, large, at_, room⟩
  · have place := block.place
    have heap := (core.block_place block).1
    obtain ⟨low, high⟩ := heap
    omega
  · have positive := core.counts page n large
    have last := core.wiring.heap (page + n - 1)
      (List.mem_append_left _ (large_page large ⟨by omega, by omega⟩))
    have high := last.2
    omega

theorem Whole.own_away (whole : Whole mblock s n) : ∀ a ∈ HeapBytes mblock s.heap (held s), a ∉ own (below mblock) s.live := by
  obtain ⟨free, core⟩ := whole.inv.core
  rintro a used (⟨low, outside⟩ | ⟨b, live, inside⟩)
  · rcases used with desc | ⟨head, -⟩ | ⟨i, x, block, -, from_, -⟩
    · exact outside desc
    · have heap := core.wiring.heap _ (List.mem_append_left _ (core.headPages_sub head))
      have first := heap.1
      unfold K_HEAP_START at low
      omega
    · have heap := (core.block_place block).1
      have first := heap.1
      unfold K_HEAP_START at low
      omega
  · exact (whole.block_heap live inside).2.2 used

theorem Whole.write {mem : Memory} (whole : Whole mblock s n) (changes : ChangesOnly (own (below mblock) s.live) s.heap.mem mem) :
    Whole mblock (setHeap s (setMem s.heap mem)) n :=
  ⟨whole.inv.rewrite changes whole.own_away, whole.laid, whole.vacant⟩

/-- What the callers of the heap rely on. -/
def clientHeap (mblock : Nat) (fresh : Sys → Memory) : ClientHeap Sys where
  toCalls := heapCalls mblock fresh
  live s := s.live
  static := below mblock
  whole := Whole mblock
  frames s := freeFrames s.heap.pages.pp
  whole_mono s k n whole fewer := whole.mono fewer
  fits s k whole b live := whole.block_fits live
  apart s k whole b live c live' different a inside inside' := by
    exact absurd (whole.block_heap live' inside').1
      (whole.inv.extents_apart (List.mem_map_of_mem live) (List.mem_map_of_mem live') different (whole.block_heap live inside).1)
  apart_static s k whole b live a inside low := by
    have heap := (whole.block_heap live inside).2.1.1
    have under := low.1
    unfold K_HEAP_START at under
    omega
  malloc_whole s n k limit whole := whole.malloc limit
  malloc_null s n k limit whole null := malloc_none null
  malloc_some s n k limit whole some := (whole.malloc_some limit some).2
  malloc_new s n k limit whole b live same := by
    by_cases null : (malloc mblock fresh s n).1 = 0
    · exact (whole.block_fits live).1 (same.trans null)
    · exact (whole.malloc_some limit null).1 (same ▸ List.mem_map_of_mem live)
  malloc_kept s n k limit whole := whole.malloc_kept limit
  malloc_granted s n k limit whole enough := by
    refine ⟨?_, whole.malloc_frames limit enough⟩
    show (malloc mblock fresh s n).1 ≠ 0
    rw [Ne, whole.malloc_null_iff fresh limit]
    rintro ⟨-, few⟩
    omega
  free_runs s k whole b live := by
    obtain ⟨s', freed, whole', left, frames, kept⟩ := whole.free (List.mem_map_of_mem live)
    exact ⟨s', freed, whole', frames, left, kept⟩
  write_mem s m := rfl
  write_live s m := rfl
  write_frames s m := rfl
  write_whole s m k whole changes := whole.write changes

theorem clientHeap_room : (clientHeap mblock fresh).Room s n ↔ Whole mblock s n ∧ n ≤ freeFrames s.heap.pages.pp := Iff.rfl

/-- The heap after boot. -/
abbrev bootHeap : ClientHeap Sys := clientHeap kMemBlock fun _ _ => 0

theorem booted_room (few : n ≤ 128) : bootHeap.Room booted n := by
  rw [clientHeap_room, booted_frames]
  exact ⟨booted_whole (by omega), few⟩

/-! A run after boot. -/

theorem malloc_reach {limit : Nat} {s₀ : Sys} (run : Reach (step kMemBlock) (Permitted kMemBlock limit) s₀ s)
    (room : bootHeap.Room s (pagesFor size + n)) (small : size ≤ limit) (bound : size ≤ MAX_SIZE) :
    Reach (step kMemBlock) (Permitted kMemBlock limit) s₀ (bootHeap.sysMalloc s size).2 :=
  run.tail ⟨.malloc size fun _ => 0, ⟨small, Whole.requests room.1 bound⟩, rfl⟩

/-- Blocks of two classes are allocated, the first is freed, and two are left. -/
theorem booted_twoClasses (limit : Nat) (small : 512 ≤ limit) :
    ∃ s p q, Reach (step kMemBlock) (Permitted kMemBlock limit) booted s ∧ s.live = [(q, 16), (p, 512)] ∧ bootHeap.Room s 2 := by
  have little : pagesFor 16 = 1 := pagesFor_small (by decide)
  have half : pagesFor 512 = 1 := pagesFor_small (by decide)
  have room : bootHeap.Room booted (pagesFor 16 + (pagesFor 512 + (pagesFor 16 + 2))) := by
    rw [little, half]
    exact booted_room (by decide)
  have start : Reach (step kMemBlock) (Permitted kMemBlock limit) booted booted := Reach.refl _
  obtain ⟨-, live1, room1⟩ := room.malloc (by decide)
  have run1 := malloc_reach start room (by omega) (by decide)
  generalize bootHeap.sysMalloc booted 16 = r at live1 room1 run1
  obtain ⟨first, s1⟩ := r
  obtain ⟨-, live2, room2⟩ := room1.malloc (by decide)
  have run2 := malloc_reach run1 room1 small (by decide)
  have new2 := bootHeap.malloc_new _ _ _ (by decide) room1.1
  generalize bootHeap.sysMalloc s1 512 = r at live2 room2 run2 new2
  obtain ⟨p, s2⟩ := r
  obtain ⟨-, live3, room3⟩ := room2.malloc (by decide)
  have run3 := malloc_reach run2 room2 (by omega) (by decide)
  have new3 := bootHeap.malloc_new _ _ _ (by decide) room2.1
  generalize bootHeap.sysMalloc s2 16 = r at live3 room3 run3 new3
  obtain ⟨q, s3⟩ := r
  have empty : bootHeap.live booted = [] := rfl
  rw [empty] at live1
  rw [live1] at live2 new2
  rw [live2] at live3 new3
  have member : (first, 16) ∈ bootHeap.live s3 := by
    rw [live3]
    simp
  obtain ⟨s4, freed, live4, room4⟩ := room3.free member
  refine ⟨s4, p, q, run3.tail ⟨.free first, List.mem_map_of_mem member, freed⟩, ?_, room4⟩
  have other2 : first ≠ p := new2 (first, 16) (by simp)
  have other3 : first ≠ q := new3 (first, 16) (by simp)
  show bootHeap.live s4 = _
  rw [live4, live3]
  simp [other2.symm, other3.symm]

/-- Then a piece of two pages is asked for. -/
theorem twoClasses_granted :
    ∃ s, Reach (step kMemBlock) (Permitted kMemBlock MAX_SIZE) booted s ∧ s.live.map Prod.snd = [16, 512] ∧
      Granted kMemBlock s 5000 (Heap.sysMalloc s.heap kMemBlock 5000 fun _ => 0).1
        (Heap.sysMalloc s.heap kMemBlock 5000 fun _ => 0).2 := by
  obtain ⟨s, p, q, run, live, room⟩ := booted_twoClasses MAX_SIZE (by decide)
  have two : pagesFor 5000 = 2 := by decide
  rw [← two, ← Nat.add_zero (pagesFor 5000)] at room
  refine ⟨s, run, by rw [live]; rfl, ?_⟩
  exact reach_granted booted_start run (by decide) (Whole.requests room.1 (by decide)) (room.malloc (by decide)).1

end KOS.HeapRoom
