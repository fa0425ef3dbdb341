import KOS.HeapCalls

/-! `sys_malloc` and `sys_free` as the code that calls them may rely on them. They promise something only while the
heap has pages left and its clients keep to their bytes. -/

namespace KOS.Clients
open KOS.ByteMemory KOS.LinkMemory KOS.Heap KOS.HeapLayout

/-- The calls, and the memory that the heap shares with its clients. -/
structure Calls (σ : Type*) where
  mem : σ → Memory
  setMem : σ → Memory → σ
  sysMalloc : σ → Nat → Nat × σ
  /-- `none` if an assertion of the page layer fails. -/
  sysFree : σ → Nat → Option σ

/-- The pages that a call asks for if it asks for any. -/
def pagesFor (size : Nat) : Nat := if 1024 < size then pageCnt size else 1

def bytes (b : Nat × Nat) : Set Nat := Set.Ico b.1 (b.1 + b.2)

/-- The bytes that clients may write: their blocks, and what is not the heap's. -/
def own (static : Set Nat) (live : List (Nat × Nat)) : Set Nat := {a | a ∈ static ∨ ∃ b ∈ live, a ∈ bytes b}

/-- What the calls do to a whole heap whose pages have a place. A call may find no frame and return NULL. Nothing is said
of a heap that somebody has written over, or of freeing what is not out. -/
structure ClientHeap (σ : Type*) extends Calls σ where
  /-- The blocks that are out, with the sizes asked for. -/
  live : σ → List (Nat × Nat)
  /-- Variables and stacks. -/
  static : Set Nat
  /-- The bookkeeping is right, and this many pages have a place. -/
  whole : σ → Nat → Prop
  /-- How many pages can be backed. -/
  frames : σ → Nat
  whole_mono : ∀ s k n, whole s n → k ≤ n → whole s k
  fits : ∀ s k, whole s k → ∀ b ∈ live s, b.1 ≠ 0 ∧ b.1 + b.2 ≤ 2 ^ 32
  apart : ∀ s k, whole s k → ∀ b ∈ live s, ∀ c ∈ live s, b.1 ≠ c.1 → ∀ a ∈ bytes b, a ∉ bytes c
  apart_static : ∀ s k, whole s k → ∀ b ∈ live s, ∀ a ∈ bytes b, a ∉ static
  malloc_whole : ∀ s n k, n ≤ MAX_SIZE → whole s (pagesFor n + k) → whole (sysMalloc s n).2 k
  malloc_null : ∀ s n k, n ≤ MAX_SIZE → whole s (pagesFor n + k) → (sysMalloc s n).1 = 0 → live (sysMalloc s n).2 = live s
  malloc_some : ∀ s n k, n ≤ MAX_SIZE → whole s (pagesFor n + k) → (sysMalloc s n).1 ≠ 0 →
    live (sysMalloc s n).2 = ((sysMalloc s n).1, n) :: live s
  malloc_new : ∀ s n k, n ≤ MAX_SIZE → whole s (pagesFor n + k) → ∀ b ∈ live s, b.1 ≠ (sysMalloc s n).1
  malloc_kept : ∀ s n k, n ≤ MAX_SIZE → whole s (pagesFor n + k) →
    ∀ b ∈ live s, ∀ a ∈ bytes b, mem (sysMalloc s n).2 a = mem s a
  malloc_granted : ∀ s n k, n ≤ MAX_SIZE → whole s (pagesFor n + k) → pagesFor n ≤ frames s →
    (sysMalloc s n).1 ≠ 0 ∧ frames s ≤ frames (sysMalloc s n).2 + pagesFor n
  free_runs : ∀ s k, whole s k → ∀ b ∈ live s, ∃ s', sysFree s b.1 = some s' ∧ whole s' k ∧ frames s ≤ frames s' ∧
    live s' = (live s).filter (·.1 ≠ b.1) ∧ ∀ c ∈ live s', ∀ a ∈ bytes c, mem s' a = mem s a
  write_mem : ∀ s m, mem (setMem s m) = m
  write_live : ∀ s m, live (setMem s m) = live s
  write_frames : ∀ s m, frames (setMem s m) = frames s
  write_whole : ∀ s m k, whole s k → ChangesOnly (own static (live s)) (mem s) m → whole (setMem s m) k

theorem pagesFor_small {size : Nat} (little : size ≤ 1024) : pagesFor size = 1 := if_neg (by omega)

theorem pagesFor_pos {size : Nat} (limit : size ≤ MAX_SIZE) : 0 < pagesFor size := by
  have covers := pageCnt_covers limit
  unfold pagesFor
  split_ifs
  · omega
  · exact Nat.one_pos

variable {σ : Type*} {H : ClientHeap σ} {s s' : σ} {k n size : Nat}

/-- This many pages can be had. -/
def ClientHeap.Room (H : ClientHeap σ) (s : σ) (n : Nat) : Prop := H.whole s n ∧ n ≤ H.frames s

theorem ClientHeap.Room.mono (room : H.Room s n) (fewer : k ≤ n) : H.Room s k :=
  ⟨H.whole_mono s k n room.1 fewer, fewer.trans room.2⟩

/-- A request that there is room for gets a new block. -/
theorem ClientHeap.Room.malloc (room : H.Room s (pagesFor size + n)) (limit : size ≤ MAX_SIZE) :
    (H.sysMalloc s size).1 ≠ 0 ∧ H.live (H.sysMalloc s size).2 = ((H.sysMalloc s size).1, size) :: H.live s ∧
      H.Room (H.sysMalloc s size).2 n := by
  obtain ⟨whole, enough⟩ := room
  obtain ⟨some, left⟩ := H.malloc_granted s size n limit whole ((Nat.le_add_right _ n).trans enough)
  exact ⟨some, H.malloc_some s size n limit whole some, H.malloc_whole s size n limit whole, by omega⟩

theorem ClientHeap.Room.free (room : H.Room s n) {b : Nat × Nat} (live : b ∈ H.live s) :
    ∃ s', H.sysFree s b.1 = some s' ∧ H.live s' = (H.live s).filter (·.1 ≠ b.1) ∧ H.Room s' n := by
  obtain ⟨s', freed, whole, frames, left, -⟩ := H.free_runs s n room.1 b live
  exact ⟨s', freed, left, whole, room.2.trans frames⟩

end KOS.Clients
