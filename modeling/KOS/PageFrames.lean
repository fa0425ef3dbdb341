import KOS.BitmapFit
import KOS.PageAlloc
import KOS.PageCalls

/-! When `page_malloc` fails, and what a failed call leaves behind. -/

namespace KOS.PageFrames
open KOS.PageBitmap KOS.Paging KOS.PageWiring KOS.PageCalls KOS.PageAlloc KOS.FirstFit KOS.BitmapFit KOS.Machine

/-! Frames. -/

def freeFrames (pp : PPool) : Nat := freeCount (bitmapCheck pp.paddrBitmap) (8 * pp.paddrBitmap.len)

/-- The frames of a pool are below 4 GiB, and none is at 0. -/
structure Pooled (pp : PPool) : Prop where
  nonzero : 0 < pp.paddrStart
  fits : pp.paddrStart + 8 * pp.paddrBitmap.len * PG_SIZE ≤ 2 ^ 32

theorem palloc_full {pp : PPool} (full : freeFrames pp = 0) : palloc pp = (0, pp) := by
  cases acquired : bitmapAcquire pp.paddrBitmap 1 with
  | mk found btmp =>
    cases found with
    | none =>
      rw [palloc, acquired, bitmapAcquire_none acquired]
    | some f =>
      obtain ⟨inside, clear, -⟩ := bitmapAcquire_some Nat.one_pos acquired
      have left : 0 < freeFrames pp := freeCount_pos.mpr ⟨f, by omega, clear f le_rfl (by omega)⟩
      omega

theorem palloc_takes {pp : PPool} (pooled : Pooled pp) (left : 0 < freeFrames pp) :
    (palloc pp).1 ≠ 0 ∧ Pooled (palloc pp).2 ∧ freeFrames (palloc pp).2 + 1 = freeFrames pp := by
  cases acquired : bitmapAcquire pp.paddrBitmap 1 with
  | mk found btmp =>
    cases found with
    | none =>
      obtain ⟨f, inside, clear⟩ := freeCount_pos.mp left
      have none := (bitmapAcquire_first Nat.one_pos).2 (congrArg Prod.fst acquired) f
      refine absurd ⟨by omega, ?_⟩ none
      intro j low high
      rw [show j = f by omega]
      exact clear
    | some f =>
      obtain ⟨inside, clear, rfl⟩ := bitmapAcquire_some Nat.one_pos acquired
      obtain ⟨nonzero, fits⟩ := pooled
      have taken := bitmapCheck_setRun pp.paddrBitmap f 1
      simp only [palloc, acquired]
      refine ⟨?_, ⟨nonzero, ?_⟩, ?_⟩
      · unfold PG_SIZE at *
        omega
      · rw [setRun_len]
        exact fits
      · unfold freeFrames
        rw [setRun_len]
        apply freeCount_take (show f < 8 * pp.paddrBitmap.len by omega) (clear f le_rfl (by omega))
        · rw [taken, decide_eq_true ⟨le_rfl, Nat.lt_succ_self f⟩, Bool.true_or]
        · intro j different
          have outside : ¬(f ≤ j ∧ j < f + 1) := by omega
          rw [taken, decide_eq_false outside, Bool.false_or]

/-- The free frames that a loop over `n` pages needs, given which page tables are installed: a
missing table takes one more, unless only the last page is in it. -/
def framesNeeded (tables : Nat → Bool) : (vaddrIdx n : Nat) → Nat
  | _, 0 => 0
  | vaddrIdx, n + 1 =>
      let next := (vaddrIdx + PG_SIZE) % 2 ^ 32
      if tables (PDE_IDX vaddrIdx) then 1 + framesNeeded tables next n
      else if n = 0 then 1
      else 2 + framesNeeded (Function.update tables (PDE_IDX vaddrIdx) true) next n

theorem framesNeeded_pos (tables : Nat → Bool) (vaddrIdx : Nat) {n : Nat} (positive : 0 < n) :
    0 < framesNeeded tables vaddrIdx n := by
  cases n with
  | zero => omega
  | succ n =>
    rw [framesNeeded]
    split_ifs <;> omega

def tables (k : Pages) (i : Nat) : Bool := present (k.pde i)

theorem pageTableAdd_installed {k : Pages} {vaddr : Nat} (paddr : Nat) (installed : tables k (PDE_IDX vaddr) = true) :
    (pageTableAdd k vaddr paddr).pp = k.pp ∧ tables (pageTableAdd k vaddr paddr) = tables k := by
  have there : present (k.pde (PDE_IDX vaddr)) = true := installed
  unfold pageTableAdd
  simp only [if_pos there]
  exact ⟨trivial, rfl⟩

theorem pageTableAdd_missing {k : Pages} {vaddr : Nat} (paddr : Nat) (missing : tables k (PDE_IDX vaddr) = false) :
    (pageTableAdd k vaddr paddr).pp = (palloc k.pp).2 ∧
      tables (pageTableAdd k vaddr paddr) = Function.update (tables k) (PDE_IDX vaddr) true := by
  have absent : ¬present (k.pde (PDE_IDX vaddr)) = true := by
    rw [show present (k.pde (PDE_IDX vaddr)) = false from missing]
    exact Bool.false_ne_true
  have low : ∀ word, present (word ||| PG_P_1) = true := by
    intro word
    unfold present PG_P_1
    rw [Nat.and_one_is_mod, decide_eq_true_iff]
    have odd := Nat.or_mod_two_eq_one (a := word) (b := 1)
    omega
  unfold pageTableAdd
  rw [if_neg absent]
  refine ⟨rfl, ?_⟩
  funext i
  by_cases same : i = PDE_IDX vaddr
  · subst same
    simp only [tables, Function.update_self]
    exact low _
  · simp only [tables, Function.update_of_ne same]

/-- The loop gets through exactly if it finds the frames that it needs. -/
theorem acquireLoop_done {k : Pages} (pooled : Pooled k.pp) (vaddrIdx n : Nat) :
    (acquireLoop k vaddrIdx n).1 = true ↔ framesNeeded (tables k) vaddrIdx n ≤ freeFrames k.pp := by
  induction n generalizing k vaddrIdx with
  | zero => simp [acquireLoop, framesNeeded]
  | succ n ih =>
    rw [acquireLoop, framesNeeded]
    by_cases full : freeFrames k.pp = 0
    · rw [palloc_full full, full]
      simp only [if_true, Bool.false_eq_true, false_iff]
      split_ifs <;> omega
    · obtain ⟨some, pooled', taken⟩ := palloc_takes pooled (Nat.pos_of_ne_zero full)
      simp only [if_neg some]
      have pp : ({ k with pp := (palloc k.pp).2 } : Pages).pp = (palloc k.pp).2 := rfl
      have same : tables { k with pp := (palloc k.pp).2 } = tables k := rfl
      generalize ({ k with pp := (palloc k.pp).2 } : Pages) = handed at pp same ⊢
      rw [← pp] at pooled' taken
      rw [← same]
      cases table : tables handed (PDE_IDX vaddrIdx) with
      | true =>
        obtain ⟨kept, installed⟩ := pageTableAdd_installed (palloc k.pp).1 table
        rw [← kept] at pooled' taken
        rw [ih pooled', installed, if_pos rfl]
        omega
      | false =>
        obtain ⟨took, installed⟩ := pageTableAdd_missing (palloc k.pp).1 table
        rw [if_neg Bool.false_ne_true]
        by_cases last : freeFrames handed.pp = 0
        · have kept : (pageTableAdd handed vaddrIdx (palloc k.pp).1).pp = handed.pp := by rw [took, palloc_full last]
          rw [← kept] at pooled' taken last
          rw [ih pooled', installed, last]
          by_cases one : n = 0
          · subst one
            simp only [framesNeeded, if_true]
            omega
          · have needs := framesNeeded_pos (Function.update (tables handed) (PDE_IDX vaddrIdx) true)
              ((vaddrIdx + PG_SIZE) % 2 ^ 32) (Nat.pos_of_ne_zero one)
            rw [if_neg one]
            omega
        · obtain ⟨-, pooled'', taken'⟩ := palloc_takes pooled' (Nat.pos_of_ne_zero last)
          rw [← took] at pooled'' taken'
          rw [ih pooled'', installed]
          by_cases one : n = 0
          · subst one
            simp only [framesNeeded, if_true]
            omega
          · rw [if_neg one]
            omega

theorem pageTableAdd_vp (k : Pages) (vaddr paddr : Nat) : (pageTableAdd k vaddr paddr).vp = k.vp := by
  unfold pageTableAdd
  split_ifs <;> rfl

theorem acquireLoop_vp (k : Pages) (vaddrIdx n : Nat) : (acquireLoop k vaddrIdx n).2.vp = k.vp := by
  induction n generalizing k vaddrIdx with
  | zero => rfl
  | succ n ih =>
    rw [acquireLoop]
    simp only
    split_ifs
    · rfl
    · rw [ih, pageTableAdd_vp]

/-- With every page table there, one frame a page. -/
theorem framesNeeded_installed {tables : Nat → Bool} {vaddrIdx n : Nat}
    (installed : ∀ m, m < n → tables (PDE_IDX ((vaddrIdx + m * PG_SIZE) % 2 ^ 32)) = true)
    (small : vaddrIdx < 2 ^ 32) : framesNeeded tables vaddrIdx n = n := by
  induction n generalizing vaddrIdx with
  | zero => rfl
  | succ n ih =>
    have first : tables (PDE_IDX vaddrIdx) = true := by
      have here := installed 0 (Nat.succ_pos n)
      rwa [Nat.zero_mul, Nat.add_zero, Nat.mod_eq_of_lt small] at here
    rw [framesNeeded, if_pos first, ih _ (Nat.mod_lt _ (by decide)), Nat.add_comm]
    intro m below
    have next := installed (m + 1) (by omega)
    rwa [show ((vaddrIdx + PG_SIZE) % 2 ^ 32 + m * PG_SIZE) % 2 ^ 32 = (vaddrIdx + (m + 1) * PG_SIZE) % 2 ^ 32 by
      unfold PG_SIZE; omega]

/-- A call returns the place that it reserved, if it finds the frames. -/
theorem pageAcquire_result {k : Pages} (pooled : Pooled k.pp) (vaddr n : Nat) :
    (pageAcquire k vaddr n).1 =
      if framesNeeded (tables k) (vaddrAcquire k.vp vaddr n).1 n ≤ freeFrames k.pp then (vaddrAcquire k.vp vaddr n).1
      else 0 := by
  rw [pageAcquire]
  by_cases null : (vaddrAcquire k.vp vaddr n).1 = 0
  · simp only [null, if_true, ite_self]
  · have done := acquireLoop_done (k := { k with vp := (vaddrAcquire k.vp vaddr n).2 }) pooled
      (vaddrAcquire k.vp vaddr n).1 n
    have same : tables { k with vp := (vaddrAcquire k.vp vaddr n).2 } = tables k := rfl
    rw [same] at done
    simp only [if_neg null]
    by_cases enough : framesNeeded (tables k) (vaddrAcquire k.vp vaddr n).1 n ≤ freeFrames k.pp
    · rw [if_pos (done.mpr enough), if_pos enough]
    · have short : ¬(acquireLoop { k with vp := (vaddrAcquire k.vp vaddr n).2 } (vaddrAcquire k.vp vaddr n).1 n).1 = true :=
        fun through => enough (done.mp through)
      rw [if_neg short, if_neg enough]

/-- A call leaves the virtual pool as its reservation does. -/
theorem pageAcquire_vp (k : Pages) (vaddr n : Nat) :
    (pageAcquire k vaddr n).2.vp = (vaddrAcquire k.vp vaddr n).2 := by
  rw [pageAcquire]
  simp only
  split_ifs
  · rfl
  · rw [acquireLoop_vp]
  · rw [acquireLoop_vp]

/-! The pools in every reachable state. -/

/-- The pools lie where `pool_init` puts them, and the kernel's page tables, which the loader
installs, are present. -/
structure Laid (k : Pages) : Prop where
  start : k.vp.vaddrStart = K_HEAP_START
  len : k.vp.vaddrBitmap.len = 0x8000
  pooled : Pooled k.pp
  installed : ∀ i, i = 0 ∨ 768 ≤ i ∧ i < 1024 → tables k i = true

theorem poolInit_laid (k : Pages) (memTotalSize : Nat) (installed : ∀ i, i = 0 ∨ 768 ≤ i ∧ i < 1024 → tables k i = true) :
    Laid (poolInit k memTotalSize) := by
  refine ⟨rfl, rfl, ⟨?_, ?_⟩, installed⟩ <;> simp only [poolInit, bitmapReset, bitmapInit] <;> unfold PG_SIZE
  · decide
  · split_ifs <;> omega

theorem bitmapAcquire_len (btmp : Bitmap) (cnt : Nat) : (bitmapAcquire btmp cnt).2.len = btmp.len := by
  unfold bitmapAcquire
  cases firstFree btmp with
  | none => rfl
  | some f =>
    simp only
    split_ifs
    · rfl
    · cases findRun btmp cnt (btmp.len * 8 - (f + 1)) (f + 1) 1 with
      | none => rfl
      | some i => exact setRun_len btmp i cnt

theorem vaddrAcquire_keeps (vp : VPool) (vaddr n : Nat) :
    (vaddrAcquire vp vaddr n).2.vaddrStart = vp.vaddrStart ∧
      (vaddrAcquire vp vaddr n).2.vaddrBitmap.len = vp.vaddrBitmap.len := by
  unfold vaddrAcquire
  split_ifs with null
  · have len := bitmapAcquire_len vp.vaddrBitmap n
    cases acquired : bitmapAcquire vp.vaddrBitmap n with
    | mk found btmp =>
      rw [acquired] at len
      cases found <;> exact ⟨rfl, len⟩
  · cases claimed : claimRun vp.vaddrBitmap (pageIdx vp vaddr) n with
    | mk ok btmp =>
      obtain ⟨m, -, rfl, -⟩ := claimRun_spec claimed
      cases ok <;> exact ⟨rfl, setRun_len _ _ _⟩

theorem Pooled.palloc {pp : PPool} (pooled : Pooled pp) : Pooled (palloc pp).2 := by
  by_cases full : freeFrames pp = 0
  · rw [palloc_full full]
    exact pooled
  · exact (palloc_takes pooled (Nat.pos_of_ne_zero full)).2.1

variable {pages : Pages}

theorem Laid.setVp {vp : VPool} (laid : Laid pages) (start : vp.vaddrStart = pages.vp.vaddrStart)
    (len : vp.vaddrBitmap.len = pages.vp.vaddrBitmap.len) : Laid { pages with vp := vp } :=
  ⟨start.trans laid.start, len.trans laid.len, laid.pooled, laid.installed⟩

theorem Laid.setPp {pp : PPool} (laid : Laid pages) (pooled : Pooled pp) : Laid { pages with pp := pp } :=
  ⟨laid.start, laid.len, pooled, laid.installed⟩

theorem Laid.pageTableAdd (laid : Laid pages) (vaddr paddr : Nat) : Laid (pageTableAdd pages vaddr paddr) := by
  have vp := pageTableAdd_vp pages vaddr paddr
  have both : Pooled (Paging.pageTableAdd pages vaddr paddr).pp ∧
      ∀ i, tables pages i = true → tables (Paging.pageTableAdd pages vaddr paddr) i = true := by
    cases table : tables pages (PDE_IDX vaddr) with
    | true =>
      obtain ⟨pp, same⟩ := pageTableAdd_installed paddr table
      rw [pp, same]
      exact ⟨laid.pooled, fun i => id⟩
    | false =>
      obtain ⟨pp, more⟩ := pageTableAdd_missing paddr table
      rw [pp, more]
      refine ⟨laid.pooled.palloc, ?_⟩
      intro i there
      by_cases same : i = PDE_IDX vaddr
      · rw [same, Function.update_self]
      · rw [Function.update_of_ne same]
        exact there
  refine ⟨?_, ?_, both.1, fun i kernel => both.2 i (laid.installed i kernel)⟩
  · rw [vp]
    exact laid.start
  · rw [vp]
    exact laid.len

theorem Laid.acquireLoop {n : Nat} (laid : Laid pages) (vaddrIdx : Nat) : Laid (acquireLoop pages vaddrIdx n).2 := by
  induction n generalizing pages vaddrIdx with
  | zero => exact laid
  | succ n ih =>
    have handed : Laid { pages with pp := (palloc pages.pp).2 } := laid.setPp laid.pooled.palloc
    rw [PageCalls.acquireLoop]
    by_cases null : (palloc pages.pp).1 = 0
    · simp only [if_pos null]
      exact handed
    · simp only [if_neg null]
      exact ih (handed.pageTableAdd vaddrIdx _) _

theorem Laid.pageAcquire (laid : Laid pages) (vaddr n : Nat) : Laid (pageAcquire pages vaddr n).2 := by
  have keeps := vaddrAcquire_keeps pages.vp vaddr n
  have reserved : Laid { pages with vp := (vaddrAcquire pages.vp vaddr n).2 } := laid.setVp keeps.1 keeps.2
  rw [PageCalls.pageAcquire]
  by_cases null : (vaddrAcquire pages.vp vaddr n).1 = 0
  · simp only [if_pos null]
    exact reserved
  · have loop := reserved.acquireLoop (n := n) (vaddrAcquire pages.vp vaddr n).1
    simp only [if_neg null]
    split_ifs
    · exact loop
    · exact loop

variable {τ : Type*} [DecidableEq τ] {k k' : Kernel τ}

theorem Laid.exec {t : τ} (laid : Laid k.pages) (ran : exec k t = some k') : Laid k'.pages := by
  cases exec_cases ran with
  | reserve vaddr n start vp pc got =>
    have keeps := vaddrAcquire_keeps k.pages.vp vaddr n
    rw [got] at keeps
    exact laid.setVp keeps.1 keeps.2
  | grant start n pc => exact laid
  | frame start n i paddr pp pc more got =>
    have pooled := laid.pooled.palloc
    rw [got] at pooled
    exact laid.setPp pooled
  | add start n i paddr pc => exact laid.pageTableAdd _ _
  | unmapped start n pc => exact laid
  | resolve start n i pc more => exact laid
  | free start n i paddr pp pc freed =>
    obtain ⟨btmp, released, rfl⟩ := Option.map_eq_some_iff.mp freed
    refine laid.setPp ⟨laid.pooled.nonzero, ?_⟩
    rw [(bitmapRelease_some released).1]
    exact laid.pooled.fits
  | remove start n i pc => exact ⟨laid.start, laid.len, laid.pooled, laid.installed⟩
  | unreserve start n vp pc freed =>
    obtain ⟨btmp, released, rfl⟩ := Option.map_eq_some_iff.mp freed
    exact laid.setVp rfl (bitmapRelease_some released).1

/-! Runs. -/

/-- Every call is for pages of the heap, below the recursive window: a call for pages of the window
writes directory entries, which `Pages` keeps apart from the entries of the pages. -/
def HeapCalls (k : Kernel τ) : Event τ → Prop
  | .malloc _ _ _ => True
  | .free _ vaddr pgCnt => K_HEAP_START ≤ vaddr ∧ vaddr + pgCnt * PG_SIZE ≤ 0xFFC00000
  | .exec t => (k.pc t).Requests k.pages.vp

instance (k : Kernel τ) : DecidablePred (HeapCalls k)
  | .malloc _ _ _ => isTrue trivial
  | .free _ vaddr pgCnt => inferInstanceAs (Decidable (K_HEAP_START ≤ vaddr ∧ vaddr + pgCnt * PG_SIZE ≤ 0xFFC00000))
  | .exec t => inferInstanceAs (Decidable ((k.pc t).Requests k.pages.vp))

/-- The pages of a call in progress lie in the heap. -/
def Reaches : Pc → Prop
  | .client | .reserve _ _ => True
  | .frame start n i | .resolve start n i => K_HEAP_START ≤ start ∧ start + n * PG_SIZE ≤ 0xFFC00000 ∧ i ≤ n
  | .add start n i _ | .free start n i _ | .remove start n i =>
      K_HEAP_START ≤ start ∧ start + n * PG_SIZE ≤ 0xFFC00000 ∧ i < n
  | .unreserve start n => K_HEAP_START ≤ start ∧ start + n * PG_SIZE ≤ 0xFFC00000

/-- Calls in progress stay in the heap, and the directory and the entries of all other pages are as at
the start. -/
structure Aside (start : Pages) (k : Kernel τ) : Prop where
  laid : Laid k.pages
  reaches : ∀ t, Reaches (k.pc t)
  pde : k.pages.pde = start.pde
  pte : ∀ page, ¬InHeap page → k.pages.pte page = start.pte page

theorem vaddrIdx_heap {start n i : Nat} (low : K_HEAP_START ≤ start) (high : start + n * PG_SIZE ≤ 0xFFC00000)
    (more : i < n) : InHeap (vaddrIdx start i / PG_SIZE) := by
  unfold InHeap vaddrIdx
  unfold K_HEAP_START PG_SIZE at *
  omega

theorem vaddrAcquire_heap {vp vp' : VPool} {vaddr n start : Nat} (from_ : vp.vaddrStart = K_HEAP_START)
    (request : Request vp vaddr n) (got : vaddrAcquire vp vaddr n = (start, vp')) (some : start ≠ 0) :
    K_HEAP_START ≤ start ∧ start + n * PG_SIZE ≤ 0xFFC00000 := by
  obtain ⟨-, free, fixed⟩ := request
  unfold vaddrAcquire at got
  split_ifs at got with null
  · have inside := free null
    cases acquired : bitmapAcquire vp.vaddrBitmap n with
    | mk found btmp =>
      rw [acquired] at got inside
      cases found with
      | none =>
        cases got
        exact absurd rfl some
      | some i =>
        have below := inside i rfl
        cases got
        rw [from_]
        unfold K_HEAP_START PG_SIZE
        omega
  · have place := (fixed null).2
    cases claimed : claimRun vp.vaddrBitmap (pageIdx vp vaddr) n with
    | mk ok btmp =>
      rw [claimed] at got
      cases ok with
      | false =>
        cases got
        exact absurd rfl some
      | true =>
        cases got
        exact place

variable {start : Pages}

theorem Aside.goto {t : τ} {pages : Pages} {owned : τ → List Nat} {pc : Pc} (aside : Aside start k) (laid : Laid pages)
    (reaches : Reaches pc) (pde : pages.pde = k.pages.pde)
    (pte : ∀ page, ¬InHeap page → pages.pte page = k.pages.pte page) :
    Aside start (⟨pages, Function.update k.pc t pc, owned⟩ : Kernel τ) := by
  refine ⟨laid, ?_, pde.trans aside.pde, fun page outside => (pte page outside).trans (aside.pte page outside)⟩
  intro u
  change Reaches (Function.update k.pc t pc u)
  by_cases same : u = t
  · rw [same, Function.update_self]
    exact reaches
  · rw [Function.update_of_ne same]
    exact aside.reaches u

/-- Mapping a page of the heap writes its own entry only: its table is there. -/
theorem Laid.pageTableAdd_heap {vaddr : Nat} (laid : Laid pages) (heap : InHeap (vaddr / PG_SIZE)) (paddr : Nat) :
    Paging.pageTableAdd pages vaddr paddr =
      { pages with pte := Function.update pages.pte (vaddr / PG_SIZE) (entry paddr) } := by
  have there : tables pages (PDE_IDX vaddr) = true := by
    apply laid.installed
    rw [pdeIdx_eq]
    obtain ⟨low, high⟩ := heap
    unfold PG_SIZE at low high
    omega
  have present : present (pages.pde (PDE_IDX vaddr)) = true := there
  unfold Paging.pageTableAdd
  simp only [if_pos present]
  rfl

theorem Aside.exec {t : τ} (aside : Aside start k) (requests : (k.pc t).Requests k.pages.vp) (ran : exec k t = some k') :
    Aside start k' := by
  have laid := aside.laid.exec ran
  have reaches := aside.reaches t
  cases exec_cases ran with
  | reserve vaddr n first vp pc got =>
    rw [pc] at requests
    apply aside.goto laid _ rfl fun _ _ => rfl
    split_ifs with null
    · trivial
    · obtain ⟨low, high⟩ := vaddrAcquire_heap aside.laid.start requests got null
      exact ⟨low, high, Nat.zero_le n⟩
  | grant first n pc => exact aside.goto laid trivial rfl fun _ _ => rfl
  | frame first n i paddr pp pc more got =>
    rw [pc] at reaches
    obtain ⟨low, high, below⟩ := reaches
    apply aside.goto laid _ rfl fun _ _ => rfl
    split_ifs with null
    · trivial
    · exact ⟨low, high, by omega⟩
  | add first n i paddr pc =>
    rw [pc] at reaches
    obtain ⟨low, high, below⟩ := reaches
    have heap := vaddrIdx_heap low high below
    have same := aside.laid.pageTableAdd_heap heap paddr
    have next : Reaches (.frame first n (i + 1)) := ⟨low, high, by omega⟩
    have pde : (pageTableAdd k.pages (vaddrIdx first i) paddr).pde = k.pages.pde := by rw [same]
    apply aside.goto laid next pde
    intro page outside
    have other : page ≠ vaddrIdx first i / PG_SIZE := fun own => outside (own.symm ▸ heap)
    exact (congrFun (congrArg Pages.pte same) page).trans (Function.update_of_ne other _ _)
  | unmapped first n pc =>
    rw [pc] at reaches
    exact aside.goto laid ⟨reaches.1, reaches.2.1⟩ rfl fun _ _ => rfl
  | resolve first n i pc more =>
    rw [pc] at reaches
    obtain ⟨low, high, below⟩ := reaches
    exact aside.goto laid ⟨low, high, by omega⟩ rfl fun _ _ => rfl
  | free first n i paddr pp pc freed =>
    rw [pc] at reaches
    exact aside.goto laid reaches rfl fun _ _ => rfl
  | remove first n i pc =>
    rw [pc] at reaches
    obtain ⟨low, high, below⟩ := reaches
    have heap := vaddrIdx_heap low high below
    have next : Reaches (.resolve first n (i + 1)) := ⟨low, high, by omega⟩
    apply aside.goto laid next rfl
    intro page outside
    have other : page ≠ vaddrIdx first i / PG_SIZE := fun own => outside (own.symm ▸ heap)
    exact Function.update_of_ne other _ _
  | unreserve first n vp pc freed => exact aside.goto laid trivial rfl fun _ _ => rfl

theorem Aside.step {e : Event τ} (aside : Aside start k) (calls : HeapCalls k e) (moved : step k e = some k') :
    Aside start k' := by
  cases e with
  | exec t => exact aside.exec calls moved
  | malloc t vaddr n =>
    simp only [PageAlloc.step] at moved
    split_ifs at moved
    cases moved
    exact aside.goto aside.laid trivial rfl fun _ _ => rfl
  | free t vaddr n =>
    simp only [PageAlloc.step] at moved
    split_ifs at moved
    cases moved
    have reaches : Reaches (.resolve vaddr n 0) := ⟨calls.1, calls.2, Nat.zero_le n⟩
    exact aside.goto aside.laid reaches rfl fun _ _ => rfl

/-- The first `n` clear bits in a row of the virtual bitmap start at `i`. -/
def FirstClear (vp : VPool) (n i : Nat) : Prop :=
  First (bitmapCheck vp.vaddrBitmap) (8 * vp.vaddrBitmap.len) n i

theorem vaddrAcquire_first (vp : VPool) {n : Nat} (positive : 0 < n) :
    (∃ i, FirstClear vp n i ∧ vaddrAcquire vp 0 n =
      ((vp.vaddrStart + i * PG_SIZE) % 2 ^ 32, { vp with vaddrBitmap := setRun vp.vaddrBitmap i n })) ∨
      (∀ i, ¬FirstClear vp n i) ∧ vaddrAcquire vp 0 n = (0, vp) := by
  have search : (∀ i, (bitmapAcquire vp.vaddrBitmap n).1 = some i → FirstClear vp n i) ∧
      ((bitmapAcquire vp.vaddrBitmap n).1 = none → ∀ i, ¬Run _ (8 * vp.vaddrBitmap.len) n i) :=
    bitmapAcquire_first positive
  obtain ⟨first, none⟩ := search
  rw [vaddrAcquire, if_pos rfl]
  cases acquired : bitmapAcquire vp.vaddrBitmap n with
  | mk found btmp =>
    rw [acquired] at first none
    cases found with
    | some i =>
      obtain ⟨-, -, rfl⟩ := bitmapAcquire_some positive acquired
      exact .inl ⟨i, first i rfl, rfl⟩
    | none =>
      rw [bitmapAcquire_none acquired]
      exact .inr ⟨fun i clear => none rfl i clear.run, rfl⟩

/-- The pages of a reservation are in tables that are there. -/
theorem Laid.framesNeeded {n i : Nat} (laid : Laid pages) (first : FirstClear pages.vp n i) :
    framesNeeded (tables pages) ((K_HEAP_START + i * PG_SIZE) % 2 ^ 32) n = n := by
  have inside := first.run.inside
  rw [laid.len] at inside
  apply framesNeeded_installed _ (Nat.mod_lt _ (by decide))
  intro m below
  apply laid.installed
  rw [pdeIdx_eq]
  unfold K_HEAP_START PG_SIZE
  omega

theorem shares_heap : (play step HeapCalls small shares).isSome := by
  decide +kernel

/-- After three calls of two threads. -/
def settled : Kernel Nat := (play step HeapCalls small shares).get shares_heap

end KOS.PageFrames
