import KOS.PageBitmap

/-! The page layer of `memory.c`: the pools, the page table and the critical sections that
`page_acquire` and `page_release` are made of. -/

namespace KOS.Paging
open KOS.PageBitmap

def PG_SIZE : Nat := 4096
def PG_P_1 : Nat := 0x1
def PG_RW_W : Nat := 0x2
def PG_US_U : Nat := 0x4
def K_HEAP_START : Nat := 0xC0100000

def PDE_IDX (addr : Nat) : Nat := (addr &&& 0xFFC00000) >>> 22

/-- `struct v_pool`, without its mutex. -/
structure VPool where
  vaddrStart : Nat
  vaddrBitmap : Bitmap

/-- `struct p_pool`, without its mutex. -/
structure PPool where
  paddrStart : Nat
  size : Nat
  paddrBitmap : Bitmap

/-- `k_v_pool`, `k_p_pool` and `u_p_pool`, and the page table: `pde` by directory index, `pte`
by virtual page. -/
structure Pages where
  vp : VPool
  pp : PPool
  up : PPool
  pde : Nat → Nat
  pte : Nat → Nat

def addrV2p (k : Pages) (vaddr : Nat) : Nat :=
  ((k.pte (vaddr / PG_SIZE) &&& 0xfffff000) + (vaddr &&& 0xfff)) % 2 ^ 32

/-- The fixed-address loop: `false` as soon as a page is in use, with the pages before it set. -/
def claimRun (btmp : Bitmap) : (btmpIdx cnt : Nat) → Bool × Bitmap
  | _, 0 => (true, btmp)
  | btmpIdx, cnt + 1 =>
      if bitmapCheck btmp btmpIdx then (false, btmp)
      else claimRun (bitmapSet btmp btmpIdx true) (btmpIdx + 1) cnt

def pageIdx (vp : VPool) (vaddr : Nat) : Nat := (vaddr + (2 ^ 32 - vp.vaddrStart)) % 2 ^ 32 / PG_SIZE

/-- Address 0 is NULL. -/
def vaddrAcquire (vp : VPool) (vaddr pgCnt : Nat) : Nat × VPool :=
  if vaddr = 0 then
    match bitmapAcquire vp.vaddrBitmap pgCnt with
    | (none, btmp) => (0, { vp with vaddrBitmap := btmp })
    | (some btmpIdx, btmp) =>
        ((vp.vaddrStart + btmpIdx * PG_SIZE) % 2 ^ 32, { vp with vaddrBitmap := btmp })
  else
    match claimRun vp.vaddrBitmap (pageIdx vp vaddr) pgCnt with
    | (false, btmp) => (0, { vp with vaddrBitmap := btmp })
    | (true, btmp) => (vaddr, { vp with vaddrBitmap := btmp })

def vaddrRelease (vp : VPool) (vaddr pgCnt : Nat) : Option VPool :=
  (bitmapRelease vp.vaddrBitmap (pageIdx vp vaddr) pgCnt).map fun btmp => { vp with vaddrBitmap := btmp }

def palloc (pp : PPool) : Nat × PPool :=
  match bitmapAcquire pp.paddrBitmap 1 with
  | (none, btmp) => (0, { pp with paddrBitmap := btmp })
  | (some btmpIdx, btmp) =>
      ((pp.paddrStart + btmpIdx * PG_SIZE) % 2 ^ 32, { pp with paddrBitmap := btmp })

def pfree (pp : PPool) (paddr : Nat) : Option PPool :=
  (bitmapRelease pp.paddrBitmap ((paddr + (2 ^ 32 - pp.paddrStart)) % 2 ^ 32 / PG_SIZE) 1).map
    fun btmp => { pp with paddrBitmap := btmp }

def present (entry : Nat) : Bool := entry &&& PG_P_1 ≠ 0

def pageTableAdd (k : Pages) (vaddr paddr : Nat) : Pages :=
  let k :=
    if present (k.pde (PDE_IDX vaddr)) then k
    else
      let (ptPaddr, pp) := palloc k.pp
      { k with
        pp := pp
        pde := Function.update k.pde (PDE_IDX vaddr) (ptPaddr ||| PG_US_U ||| PG_RW_W ||| PG_P_1)
        pte := fun page => if page / 1024 = PDE_IDX vaddr then 0 else k.pte page }
  { k with pte := Function.update k.pte (vaddr / PG_SIZE) (paddr ||| PG_US_U ||| PG_RW_W ||| PG_P_1) }

/-- Without its `invlpg`, which only concerns the TLB. -/
def pageTableRemove (k : Pages) (vaddr : Nat) : Pages :=
  { k with pte := Function.update k.pte (vaddr / PG_SIZE) (k.pte (vaddr / PG_SIZE) &&& (2 ^ 32 - 1 - PG_P_1)) }

/-- `pool_init`; the bitmaps keep the storage that they had. -/
def poolInit (k : Pages) (memTotalSize : Nat) : Pages :=
  let pageTableSize := PG_SIZE * 256
  let usedMem := pageTableSize + 0x100000
  let freeMem := (memTotalSize + (2 ^ 32 - usedMem)) % 2 ^ 32
  let allFreePages := freeMem / PG_SIZE
  let kernelFreePages := if allFreePages / 2 > 0x40000 then 0x40000 else allFreePages / 2
  let userFreePages := allFreePages - kernelFreePages
  let kpStart := usedMem
  let upStart := (kpStart + kernelFreePages * PG_SIZE) % 2 ^ 32
  { k with
    pp := {
      paddrStart := kpStart
      size := kernelFreePages * PG_SIZE % 2 ^ 32
      paddrBitmap := bitmapReset (bitmapInit k.pp.paddrBitmap.bits (kernelFreePages / 8)) }
    up := {
      paddrStart := upStart
      size := userFreePages * PG_SIZE % 2 ^ 32
      paddrBitmap := bitmapReset (bitmapInit k.up.paddrBitmap.bits (userFreePages / 8)) }
    vp := {
      vaddrStart := K_HEAP_START
      vaddrBitmap := bitmapReset (bitmapInit k.vp.vaddrBitmap.bits 0x8000) } }

/-! Words. -/

theorem pdeIdx_eq (addr : Nat) : PDE_IDX addr = addr / 2 ^ 22 % 1024 := by
  unfold PDE_IDX
  rw [Nat.shiftRight_and_distrib, Nat.shiftRight_eq_div_pow]
  exact Nat.and_two_pow_sub_one_eq_mod (addr / 2 ^ 22) 10

/-- The entry that maps a page to the frame at `paddr`. -/
def entry (paddr : Nat) : Nat := paddr ||| PG_US_U ||| PG_RW_W ||| PG_P_1

theorem entry_eq {paddr : Nat} (aligned : paddr % PG_SIZE = 0) : entry paddr = paddr + 7 := by
  have shifted : paddr = (paddr / 8) <<< 3 := by
    rw [Nat.shiftLeft_eq]
    unfold PG_SIZE at aligned
    omega
  have flags : entry paddr = paddr ||| 7 := by
    unfold entry
    rw [Nat.lor_assoc, Nat.lor_assoc]
    rfl
  rw [flags]
  conv_lhs => rw [shifted]
  rw [← Nat.shiftLeft_add_eq_or_of_lt (by decide : 7 < 2 ^ 3), ← shifted]

theorem mask_page (word : Nat) : word &&& 0xfffff000 = word / 2 ^ 12 % 2 ^ 20 * 2 ^ 12 := by
  apply Nat.eq_of_testBit_eq
  intro i
  rw [Nat.testBit_and, Nat.testBit_mul_two_pow, show 0xfffff000 = (2 ^ 20 - 1) * 2 ^ 12 by decide,
    Nat.testBit_mul_two_pow, Nat.testBit_two_pow_sub_one, Nat.testBit_mod_two_pow, Nat.testBit_div_two_pow]
  by_cases high : 12 ≤ i
  · rw [show i - 12 + 12 = i by omega]
    simp [high, Bool.and_comm]
  · simp [high]

theorem entry_frame {paddr : Nat} (aligned : paddr % PG_SIZE = 0) (small : paddr < 2 ^ 32) :
    entry paddr &&& 0xfffff000 = paddr := by
  rw [mask_page, entry_eq aligned]
  unfold PG_SIZE at aligned
  omega

theorem present_iff (word : Nat) : present word = true ↔ word % 2 = 1 := by
  unfold present PG_P_1
  rw [Nat.and_one_is_mod, decide_eq_true_iff]
  omega

theorem entry_present {paddr : Nat} (aligned : paddr % PG_SIZE = 0) : present (entry paddr) = true := by
  rw [present_iff, entry_eq aligned]
  unfold PG_SIZE at aligned
  omega

theorem removed_absent (word : Nat) : present (word &&& (2 ^ 32 - 1 - PG_P_1)) = false := by
  unfold present PG_P_1
  rw [Nat.and_assoc]
  simp

theorem entry_injective {paddr paddr' : Nat} (aligned : paddr % PG_SIZE = 0) (aligned' : paddr' % PG_SIZE = 0)
    (same : entry paddr = entry paddr') : paddr = paddr' := by
  rw [entry_eq aligned, entry_eq aligned'] at same
  omega

end KOS.Paging
