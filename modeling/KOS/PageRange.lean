import KOS.PageFrames

/-! Where the pages of `page_malloc` lie, and which bits of the virtual bitmap it tests and sets: the
bitmap has bits for pages past the top of the heap, and a fixed address is taken as it comes. -/

namespace KOS.PageRange
open KOS.PageBitmap KOS.Paging KOS.PageWiring KOS.PageCalls KOS.PageAlloc KOS.FirstFit KOS.BitmapFit KOS.PageFrames
  KOS.Machine

/-- The bits that the fixed-address loop tests; it sets those that it finds clear. -/
def claimRunBits (btmp : Bitmap) : (btmpIdx cnt : Nat) → List Nat
  | _, 0 => []
  | btmpIdx, cnt + 1 =>
      btmpIdx ::
        if bitmapCheck btmp btmpIdx then [] else claimRunBits (bitmapSet btmp btmpIdx true) (btmpIdx + 1) cnt

/-- The bit indices that `vaddr_acquire` tests or sets. -/
def vaddrAcquireBits (vp : VPool) (vaddr pgCnt : Nat) : List Nat :=
  if vaddr = 0 then bitmapAcquireBits vp.vaddrBitmap pgCnt
  else claimRunBits vp.vaddrBitmap (pageIdx vp vaddr) pgCnt

/-- What `page_malloc` grants lies in the heap, below the recursive window, and its reservation
stayed inside the bitmap. -/
def Confined (k : Pages) (vaddr n : Nat) : Prop :=
  (pageAcquire k vaddr n).1 ≠ 0 →
    (K_HEAP_START ≤ (pageAcquire k vaddr n).1 ∧ (pageAcquire k vaddr n).1 + n * PG_SIZE ≤ 0xFFC00000) ∧
      ∀ i ∈ vaddrAcquireBits k.vp vaddr n, i < 8 * k.vp.vaddrBitmap.len

/-- The fixed-address loop gets through a range of clear bits. -/
theorem claimRun_clear {btmp : Bitmap} {i cnt : Nat} (clear : ∀ j, i ≤ j → j < i + cnt → bitmapCheck btmp j = false) :
    (claimRun btmp i cnt).1 = true := by
  induction cnt generalizing btmp i with
  | zero => rfl
  | succ cnt ih =>
    have first : ¬bitmapCheck btmp i = true := by
      rw [clear i le_rfl (by omega)]
      exact Bool.false_ne_true
    rw [claimRun, if_neg first]
    apply ih
    intro j low high
    have other : j ≠ i := by omega
    rw [bitmapCheck_bitmapSet, if_neg other]
    exact clear j (by omega) (by omega)

variable {pages : Pages} {vaddr n : Nat}

variable {τ : Type*} [DecidableEq τ] {k k' : Kernel τ}

/-- The pages of the request are free. -/
def AllClear (vp : VPool) (vaddr n : Nat) : Prop :=
  ∀ j, pageIdx vp vaddr ≤ j → j < pageIdx vp vaddr + n → bitmapCheck vp.vaddrBitmap j = false

/-- A range that is free is granted and exactly its bits are set; any other leaves the pool as it is. -/
structure AllOrNothing (vp : VPool) (vaddr n : Nat) : Prop where
  granted : AllClear vp vaddr n → (vaddrAcquire vp vaddr n).1 = vaddr ∧
    (vaddrAcquire vp vaddr n).2.vaddrStart = vp.vaddrStart ∧
    (vaddrAcquire vp vaddr n).2.vaddrBitmap.len = vp.vaddrBitmap.len ∧
    ∀ j, bitmapCheck (vaddrAcquire vp vaddr n).2.vaddrBitmap j =
      (decide (pageIdx vp vaddr ≤ j ∧ j < pageIdx vp vaddr + n) || bitmapCheck vp.vaddrBitmap j)
  refused : ¬AllClear vp vaddr n → vaddrAcquire vp vaddr n = (0, vp)

theorem vaddrAcquire_claimed {vp : VPool} {btmp : Bitmap} {ok : Bool} (fixed : vaddr ≠ 0)
    (ran : claimRun vp.vaddrBitmap (pageIdx vp vaddr) n = (ok, btmp)) :
    vaddrAcquire vp vaddr n = (if ok then vaddr else 0, { vp with vaddrBitmap := btmp }) := by
  rw [vaddrAcquire, if_neg fixed, ran]
  cases ok with
  | true => rfl
  | false => rfl

/-- A range that starts with a free page gets at least that page. -/
theorem claimRun_first {btmp : Bitmap} {i cnt : Nat} (positive : 0 < cnt) (clear : bitmapCheck btmp i = false) :
    bitmapCheck (claimRun btmp i cnt).2 i = true := by
  cases cnt with
  | zero => exact absurd positive (Nat.lt_irrefl 0)
  | succ cnt =>
    rw [claimRun, if_neg (by rw [clear]; exact Bool.false_ne_true)]
    cases ran : claimRun (bitmapSet btmp i true) (i + 1) cnt with
    | mk ok btmp' =>
      obtain ⟨m, -, same, -, -⟩ := claimRun_spec ran
      rw [same, bitmapCheck_setRun, bitmapCheck_bitmapSet, if_pos rfl, Bool.or_true]

/-- Fixed-address requests are all or nothing exactly when the first page is in use or all pages are free: the loop
marks each page before it has seen the next one. -/
theorem vaddrAcquire_allOrNothing_iff (vp : VPool) (fixed : vaddr ≠ 0) (positive : 0 < n) :
    AllOrNothing vp vaddr n ↔ bitmapCheck vp.vaddrBitmap (pageIdx vp vaddr) = true ∨ AllClear vp vaddr n := by
  cases ran : claimRun vp.vaddrBitmap (pageIdx vp vaddr) n with
  | mk ok btmp =>
    have acquired := vaddrAcquire_claimed fixed ran
    constructor
    · intro kept
      by_contra neither
      rw [not_or] at neither
      obtain ⟨free, busy⟩ := neither
      have unchanged := (acquired.symm.trans (kept.refused busy))
      have same : btmp = vp.vaddrBitmap := congrArg (fun r => r.2.vaddrBitmap) unchanged
      have first := claimRun_first positive (Bool.eq_false_of_not_eq_true free)
      rw [ran, same] at first
      exact free first
    · intro either
      rcases either with used | clear
      · have stops : claimRun vp.vaddrBitmap (pageIdx vp vaddr) n = (false, vp.vaddrBitmap) := by
          cases n with
          | zero => exact absurd positive (Nat.lt_irrefl 0)
          | succ n => rw [claimRun, if_pos used]
        constructor
        · intro clear
          have free := clear _ le_rfl (by omega)
          exact absurd (free.symm.trans used) Bool.false_ne_true
        · intro _
          exact vaddrAcquire_claimed fixed stops
      · obtain ⟨m, -, same, -, all⟩ := claimRun_spec ran
        have done : ok = true := by
          have through := claimRun_clear clear
          rw [ran] at through
          exact through
        rw [done, if_pos rfl] at acquired
        constructor
        · intro _
          rw [acquired]
          refine ⟨rfl, rfl, ?_, ?_⟩
          · dsimp only
            rw [same, setRun_len]
          · intro j
            dsimp only
            rw [same, all done, bitmapCheck_setRun]
        · intro busy
          exact absurd clear busy

/-- The second page of the heap is in use. -/
def secondUsed : VPool := ⟨K_HEAP_START, bitmapSet ⟨fun _ => 0, 0x8000⟩ 1 true⟩

/-- A request for the first two pages fails and keeps the first. -/
theorem secondUsed_leaks : ¬AllOrNothing secondUsed K_HEAP_START 2 := by
  intro kept
  have busy : ¬AllClear secondUsed K_HEAP_START 2 := by
    intro clear
    exact absurd (clear 1 (by decide) (by decide)) (by decide)
  have unchanged := congrArg (fun r => bitmapCheck r.2.vaddrBitmap 0) (kept.refused busy)
  exact absurd unchanged (by decide)

theorem vaddrAcquire_allOrNothing_third :
    AllOrNothing secondUsed 0xC0102000 3 ↔
      bitmapCheck secondUsed.vaddrBitmap (pageIdx secondUsed 0xC0102000) = true ∨ AllClear secondUsed 0xC0102000 3 :=
  vaddrAcquire_allOrNothing_iff secondUsed (by decide) (by decide)

end KOS.PageRange
