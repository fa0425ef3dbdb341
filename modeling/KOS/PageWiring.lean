import KOS.Paging

/-! What the critical sections of the page layer keep: claimed pages have their bit set, and
the mapped ones among them have frames of their own. -/

namespace KOS.PageWiring
open KOS.PageBitmap KOS.Paging

/-- The pages from the start of the heap up to the recursive window of the page tables. -/
def InHeap (page : Nat) : Prop := 0xC0100 ≤ page ∧ page < 0xFFC00

instance (page : Nat) : Decidable (InHeap page) := inferInstanceAs (Decidable (_ ∧ _))

/-- The pages of a range that starts at address `start`. -/
def span (start n : Nat) : List Nat := List.range' (start / PG_SIZE) n

def Reserved (vp : VPool) (page : Nat) : Prop := bitmapCheck vp.vaddrBitmap (page - 0xC0100) = true

/-- The frame at `paddr` belongs to the pool and its bit is set. -/
def Taken (pp : PPool) (paddr : Nat) : Prop :=
  ∃ f, f < 8 * pp.paddrBitmap.len ∧ paddr = pp.paddrStart + f * PG_SIZE ∧ bitmapCheck pp.paddrBitmap f = true

/-- The pools lie where `pool_init` puts them, and the page tables of the heap are installed. -/
structure Sized (k : Pages) : Prop where
  start : k.vp.vaddrStart = K_HEAP_START
  aligned : k.pp.paddrStart % PG_SIZE = 0
  nonzero : 0 < k.pp.paddrStart
  fits : k.pp.paddrStart + 8 * k.pp.paddrBitmap.len * PG_SIZE ≤ 2 ^ 32
  tables : ∀ page, InHeap page → present (k.pde (page / 1024)) = true

/-- `loose` are the frames that are allocated and not mapped yet. -/
structure Wired (k : Pages) (claimed mapped loose : Set Nat) : Prop where
  sized : Sized k
  heap : ∀ page ∈ claimed, InHeap page
  reserved : ∀ page ∈ claimed, Reserved k.vp page
  entries : ∀ page ∈ mapped, ∃ paddr, Taken k.pp paddr ∧ paddr ∉ loose ∧ k.pte page = entry paddr
  taken : ∀ paddr ∈ loose, Taken k.pp paddr
  distinct : ∀ page ∈ mapped, ∀ other ∈ mapped, k.pte page = k.pte other → page = other

variable {k : Pages} {claimed mapped loose : Set Nat}

theorem Wired.weaken {claimed' mapped' loose' : Set Nat} (wired : Wired k claimed mapped loose)
    (fewer : claimed' ⊆ claimed) (unmapped : mapped' ⊆ mapped) (tied : loose' ⊆ loose) :
    Wired k claimed' mapped' loose' := by
  refine ⟨wired.sized, fun page member => wired.heap page (fewer member),
    fun page member => wired.reserved page (fewer member), ?_,
    fun paddr member => wired.taken paddr (tied member),
    fun page member other member' => wired.distinct page (unmapped member) other (unmapped member')⟩
  intro page member
  obtain ⟨paddr, taken, apart, pte⟩ := wired.entries page (unmapped member)
  exact ⟨paddr, taken, fun inside => apart (tied inside), pte⟩

theorem mem_span {start n page : Nat} :
    page ∈ span start n ↔ start / PG_SIZE ≤ page ∧ page < start / PG_SIZE + n := List.mem_range'_1

/-- A frame address of the pool is a page boundary. -/
theorem Taken.aligned {paddr : Nat} (taken : Taken k.pp paddr) (sized : Sized k) :
    paddr % PG_SIZE = 0 ∧ paddr < 2 ^ 32 := by
  obtain ⟨f, inside, rfl, -⟩ := taken
  have aligned := sized.aligned
  have fits := sized.fits
  unfold PG_SIZE at *
  omega

/-- The bit of a frame, as `pfree` computes it. -/
theorem Sized.index {f : Nat} (sized : Sized k) (inside : f < 8 * k.pp.paddrBitmap.len) :
    (k.pp.paddrStart + f * PG_SIZE + (2 ^ 32 - k.pp.paddrStart)) % 2 ^ 32 / PG_SIZE = f := by
  have fits := sized.fits
  unfold PG_SIZE at *
  omega

/-! Virtual ranges. -/

/-- What `page_malloc` may be asked for: a count, and a place that lies in the heap. -/
def Request (vp : VPool) (vaddr n : Nat) : Prop :=
  0 < n ∧ (vaddr = 0 → ∀ idx ∈ (bitmapAcquire vp.vaddrBitmap n).1, 0xC0100 + idx + n ≤ 0xFFC00) ∧
    (vaddr ≠ 0 → vaddr % PG_SIZE = 0 ∧ K_HEAP_START ≤ vaddr ∧ vaddr + n * PG_SIZE ≤ 0xFFC00000)

instance (vp : VPool) (vaddr n : Nat) : Decidable (Request vp vaddr n) :=
  inferInstanceAs (Decidable (_ ∧ _ ∧ _))

/-- The fixed-address loop sets the pages up to the first one in use. -/
theorem claimRun_spec {btmp btmp' : Bitmap} {i cnt : Nat} {ok : Bool}
    (ran : claimRun btmp i cnt = (ok, btmp')) :
    ∃ m ≤ cnt, btmp' = setRun btmp i m ∧ (∀ j, i ≤ j → j < i + m → bitmapCheck btmp j = false) ∧
      (ok = true → m = cnt) := by
  induction cnt generalizing btmp i with
  | zero =>
    cases ran
    exact ⟨0, le_rfl, rfl, by omega, fun _ => rfl⟩
  | succ cnt ih =>
    rw [claimRun] at ran
    split_ifs at ran with used
    · cases ran
      exact ⟨0, by omega, rfl, by omega, by simp⟩
    · obtain ⟨m, below, rfl, clear, full⟩ := ih ran
      refine ⟨m + 1, by omega, rfl, ?_, ?_⟩
      · intro j low high
        by_cases first : j = i
        · rw [first]
          simpa using used
        · have later := clear j (by omega) (by omega)
          rwa [bitmapCheck_bitmapSet, if_neg first] at later
      · intro done
        rw [full done]

def setVaddr (k : Pages) (btmp : Bitmap) : Pages := { k with vp := { k.vp with vaddrBitmap := btmp } }

/-- Setting bits loses no claimed page. -/
theorem Wired.setRun {i n : Nat} (wired : Wired k claimed mapped loose) :
    Wired (setVaddr k (setRun k.vp.vaddrBitmap i n)) claimed mapped loose := by
  obtain ⟨⟨start, aligned, nonzero, fits, tables⟩, heap, reserved, entries, taken, distinct⟩ := wired
  refine ⟨⟨start, aligned, nonzero, fits, tables⟩, heap, ?_, entries, taken, distinct⟩
  intro page member
  rw [Reserved, setVaddr, bitmapCheck_setRun, show bitmapCheck k.vp.vaddrBitmap (page - 0xC0100) = true from reserved page member,
    Bool.or_true]

/-- A free run of the bitmap can be claimed. -/
theorem Wired.claim {start n : Nat} (wired : Wired k claimed mapped loose) (low : K_HEAP_START ≤ start)
    (high : start / PG_SIZE + n ≤ 0xFFC00)
    (clear : ∀ j, start / PG_SIZE - 0xC0100 ≤ j → j < start / PG_SIZE - 0xC0100 + n →
      bitmapCheck k.vp.vaddrBitmap j = false) :
    (∀ page ∈ span start n, InHeap page ∧ ¬ Reserved k.vp page) ∧
      Wired (setVaddr k (PageBitmap.setRun k.vp.vaddrBitmap (start / PG_SIZE - 0xC0100) n))
        (claimed ∪ {page | page ∈ span start n}) mapped loose := by
  have first : 0xC0100 ≤ start / PG_SIZE := by
    unfold PG_SIZE
    unfold K_HEAP_START at low
    omega
  have inside : ∀ page ∈ span start n, InHeap page := by
    intro page member
    obtain ⟨from_, below⟩ := mem_span.mp member
    exact ⟨by omega, by omega⟩
  have kept := Wired.setRun (i := start / PG_SIZE - 0xC0100) (n := n) wired
  refine ⟨?_, kept.sized, ?_, ?_, kept.entries, kept.taken, kept.distinct⟩
  · intro page member
    refine ⟨inside page member, ?_⟩
    obtain ⟨from_, below⟩ := mem_span.mp member
    rw [Reserved, clear _ (by omega) (by omega)]
    exact Bool.false_ne_true
  · rintro page (old | new)
    · exact wired.heap page old
    · exact inside page new
  · rintro page (old | new)
    · exact kept.reserved page old
    · obtain ⟨from_, below⟩ := mem_span.mp new
      have within : page - 0xC0100 < start / PG_SIZE - 0xC0100 + n := by omega
      rw [Reserved, setVaddr, bitmapCheck_setRun, decide_eq_true ⟨by omega, within⟩, Bool.true_or]

theorem Wired.vaddrAcquire {vaddr n start : Nat} {vp : VPool} (wired : Wired k claimed mapped loose)
    (request : Request k.vp vaddr n) (ran : vaddrAcquire k.vp vaddr n = (start, vp)) :
    start = 0 ∧ Wired { k with vp := vp } claimed mapped loose ∨
      start ≠ 0 ∧ start % PG_SIZE = 0 ∧ start < 2 ^ 32 ∧
        (∀ page ∈ span start n, InHeap page ∧ ¬ Reserved k.vp page) ∧
        Wired { k with vp := vp } (claimed ∪ {page | page ∈ span start n}) mapped loose := by
  obtain ⟨positive, picks, fixed⟩ := request
  have base := wired.sized.start
  unfold Paging.vaddrAcquire at ran
  split_ifs at ran with null
  · cases found : bitmapAcquire k.vp.vaddrBitmap n with
    | mk idx btmp =>
      rw [found] at ran
      cases idx with
      | none =>
        cases ran
        left
        rw [bitmapAcquire_none found]
        exact ⟨rfl, wired⟩
      | some idx =>
        right
        obtain ⟨-, clear, rfl⟩ := bitmapAcquire_some positive found
        have top := picks null idx (by rw [found]; rfl)
        have address : start = K_HEAP_START + idx * PG_SIZE := by
          have wrapped : (k.vp.vaddrStart + idx * PG_SIZE) % 2 ^ 32 = start := congrArg Prod.fst ran
          rw [base] at wrapped
          unfold PG_SIZE K_HEAP_START at *
          omega
        have page : start / PG_SIZE = 0xC0100 + idx := by
          rw [address]
          unfold PG_SIZE K_HEAP_START
          omega
        cases ran
        have low : K_HEAP_START ≤ K_HEAP_START + idx * PG_SIZE := Nat.le_add_right _ _
        have claim := wired.claim (n := n) low (by rw [← address, page]; omega)
          (by rw [← address, page, Nat.add_sub_cancel_left]; exact clear)
        rw [← address, page, Nat.add_sub_cancel_left] at claim
        refine ⟨?_, ?_, ?_, claim⟩
        · rw [address]
          unfold K_HEAP_START
          omega
        · rw [address]
          unfold PG_SIZE K_HEAP_START
          omega
        · rw [address]
          unfold PG_SIZE K_HEAP_START
          omega
  · obtain ⟨aligned, low, high⟩ := fixed null
    have idx : pageIdx k.vp vaddr = vaddr / PG_SIZE - 0xC0100 := by
      unfold pageIdx
      rw [base]
      unfold PG_SIZE K_HEAP_START at *
      omega
    rw [idx] at ran
    cases loop : claimRun k.vp.vaddrBitmap (vaddr / PG_SIZE - 0xC0100) n with
    | mk ok btmp =>
      obtain ⟨m, -, rfl, clear, full⟩ := claimRun_spec loop
      rw [loop] at ran
      cases ok with
      | false =>
        cases ran
        exact .inl ⟨rfl, Wired.setRun wired⟩
      | true =>
        cases ran
        right
        rw [full rfl] at clear ⊢
        have claim := wired.claim low (by unfold PG_SIZE at *; omega) clear
        exact ⟨null, aligned, by unfold PG_SIZE at *; omega, claim⟩

/-- No reserved page is lost by reserving more. -/
theorem vaddrAcquire_grows {vp vp' : VPool} {vaddr n start page : Nat} (positive : 0 < n)
    (ran : vaddrAcquire vp vaddr n = (start, vp')) (reserved : Reserved vp page) : Reserved vp' page := by
  have kept : ∀ i m, bitmapCheck (PageBitmap.setRun vp.vaddrBitmap i m) (page - 0xC0100) = true := by
    intro i m
    rw [bitmapCheck_setRun, show bitmapCheck vp.vaddrBitmap (page - 0xC0100) = true from reserved, Bool.or_true]
  unfold vaddrAcquire at ran
  split_ifs at ran
  · cases found : bitmapAcquire vp.vaddrBitmap n with
    | mk idx btmp =>
      rw [found] at ran
      cases idx with
      | none =>
        cases ran
        rw [Reserved, bitmapAcquire_none found]
        exact reserved
      | some idx =>
        obtain ⟨-, -, rfl⟩ := bitmapAcquire_some positive found
        cases ran
        exact kept idx n
  · cases loop : claimRun vp.vaddrBitmap (pageIdx vp vaddr) n with
    | mk ok btmp =>
      obtain ⟨m, -, rfl, -⟩ := claimRun_spec loop
      rw [loop] at ran
      cases ok <;> cases ran <;> exact kept _ m

/-- A release leaves the pages outside its range reserved. -/
theorem vaddrRelease_keeps {vp vp' : VPool} {vaddr n page : Nat} (start : vp.vaddrStart = K_HEAP_START)
    (heap : ∀ page ∈ span vaddr n, InHeap page) (below : vaddr < 2 ^ 32)
    (ran : vaddrRelease vp vaddr n = some vp') (inHeap : InHeap page) (reserved : Reserved vp page)
    (outside : page ∉ span vaddr n) : Reserved vp' page := by
  obtain ⟨btmp, released, rfl⟩ := Option.map_eq_some_iff.mp ran
  obtain ⟨-, bits⟩ := bitmapRelease_some released
  have away : ¬ (pageIdx vp vaddr ≤ page - 0xC0100 ∧ page - 0xC0100 < pageIdx vp vaddr + n) := by
    by_cases empty : n = 0
    · omega
    · have first : 0xC0100 ≤ vaddr / PG_SIZE := (heap _ (mem_span.mpr ⟨le_rfl, by omega⟩)).1
      have idx : pageIdx vp vaddr = vaddr / PG_SIZE - 0xC0100 := by
        unfold pageIdx
        rw [start]
        unfold PG_SIZE K_HEAP_START at *
        omega
      rw [idx]
      intro within
      have low := inHeap.1
      exact outside (mem_span.mpr ⟨by omega, by omega⟩)
  rw [Reserved, bits, show bitmapCheck vp.vaddrBitmap (page - 0xC0100) = true from reserved, decide_eq_false away]
  rfl

theorem Wired.vaddrRelease {vaddr n : Nat} {vp : VPool} (wired : Wired k claimed mapped loose)
    (heap : ∀ page ∈ span vaddr n, InHeap page) (below : vaddr < 2 ^ 32)
    (ran : vaddrRelease k.vp vaddr n = some vp) :
    Wired { k with vp := vp } (claimed \ {page | page ∈ span vaddr n}) mapped loose := by
  have keeps : ∀ page, InHeap page → Reserved k.vp page → page ∉ span vaddr n → Reserved vp page :=
    fun page => vaddrRelease_keeps wired.sized.start heap below ran
  obtain ⟨btmp, -, rfl⟩ := Option.map_eq_some_iff.mp ran
  obtain ⟨⟨start, aligned, nonzero, fits, tables⟩, heap', reserved, entries, taken, distinct⟩ := wired
  refine ⟨⟨start, aligned, nonzero, fits, tables⟩, fun page member => heap' page member.1, ?_, entries, taken, distinct⟩
  rintro page ⟨member, outside⟩
  exact keeps page (heap' page member) (reserved page member) outside

/-! Frames. -/

/-- `palloc` hands out a frame that was free. -/
theorem palloc_spec {paddr : Nat} {pp : PPool} (sized : Sized k) (ran : palloc k.pp = (paddr, pp)) :
    paddr = 0 ∧ pp = k.pp ∨
      paddr ≠ 0 ∧ ∃ f, f < 8 * k.pp.paddrBitmap.len ∧ bitmapCheck k.pp.paddrBitmap f = false ∧
        paddr = k.pp.paddrStart + f * PG_SIZE ∧
        pp = { k.pp with paddrBitmap := PageBitmap.setRun k.pp.paddrBitmap f 1 } := by
  unfold palloc at ran
  cases found : bitmapAcquire k.pp.paddrBitmap 1 with
  | mk idx btmp =>
    rw [found] at ran
    cases idx with
    | none =>
      cases ran
      rw [bitmapAcquire_none found]
      exact .inl ⟨rfl, rfl⟩
    | some f =>
      right
      obtain ⟨inside, clear, rfl⟩ := bitmapAcquire_some Nat.one_pos found
      have fits := sized.fits
      have nonzero := sized.nonzero
      have address : paddr = k.pp.paddrStart + f * PG_SIZE := by
        have wrapped : (k.pp.paddrStart + f * PG_SIZE) % 2 ^ 32 = paddr := congrArg Prod.fst ran
        unfold PG_SIZE at *
        omega
      cases ran
      exact ⟨by omega, f, by omega, clear f le_rfl (by omega), address, rfl⟩

theorem Wired.palloc {paddr : Nat} {pp : PPool} (wired : Wired k claimed mapped loose)
    (ran : palloc k.pp = (paddr, pp)) (some : paddr ≠ 0) :
    paddr ∉ loose ∧ Wired { k with pp := pp } claimed mapped (insert paddr loose) := by
  rcases palloc_spec wired.sized ran with ⟨none, -⟩ | ⟨-, f, inside, clear, rfl, rfl⟩
  · exact absurd none some
  · have kept : ∀ paddr, Taken k.pp paddr →
        Taken { k.pp with paddrBitmap := PageBitmap.setRun k.pp.paddrBitmap f 1 } paddr := by
      rintro paddr ⟨g, low, address, used⟩
      refine ⟨g, by simpa using low, address, ?_⟩
      rw [bitmapCheck_setRun, used, Bool.or_true]
    have fresh : ¬ Taken k.pp (k.pp.paddrStart + f * PG_SIZE) := by
      rintro ⟨g, -, address, used⟩
      have same : f = g := by
        unfold PG_SIZE at address
        omega
      subst same
      rw [clear] at used
      cases used
    refine ⟨fun member => fresh (wired.taken _ member), ?_⟩
    obtain ⟨⟨start, aligned, nonzero, fits, tables⟩, heap, reserved, entries, taken, distinct⟩ := wired
    refine ⟨⟨start, aligned, nonzero, by simpa using fits, tables⟩, heap, reserved, ?_, ?_, distinct⟩
    · intro page member
      obtain ⟨paddr, holds, apart, pte⟩ := entries page member
      refine ⟨paddr, kept paddr holds, ?_, pte⟩
      rintro (rfl | inside)
      · exact fresh holds
      · exact apart inside
    · rintro paddr (rfl | old)
      · refine ⟨f, by simpa using inside, rfl, ?_⟩
        rw [bitmapCheck_setRun, decide_eq_true ⟨le_rfl, by omega⟩, Bool.true_or]
      · exact kept paddr (taken paddr old)

theorem Wired.pfree {page paddr : Nat} {pp : PPool} (wired : Wired k claimed mapped loose) (member : page ∈ mapped)
    (pte : k.pte page = entry paddr) (aligned : paddr % PG_SIZE = 0) (ran : pfree k.pp paddr = some pp) :
    Wired { k with pp := pp } claimed (mapped \ {page}) loose := by
  obtain ⟨btmp, released, rfl⟩ := Option.map_eq_some_iff.mp ran
  obtain ⟨len, bits⟩ := bitmapRelease_some released
  obtain ⟨paddr', ⟨f, inside, address, -⟩, apart, pte'⟩ := wired.entries page member
  have same : paddr = paddr' := by
    have sized := wired.sized
    apply entry_injective aligned _ (pte.symm.trans pte')
    rw [address]
    have aligned := sized.aligned
    unfold PG_SIZE at *
    omega
  subst same
  rw [show (paddr + (2 ^ 32 - k.pp.paddrStart)) % 2 ^ 32 / PG_SIZE = f by
    rw [address]
    exact wired.sized.index inside] at bits
  have kept : ∀ other, Taken k.pp other → other ≠ paddr → Taken { k.pp with paddrBitmap := btmp } other := by
    rintro other ⟨g, low, there, used⟩ different
    refine ⟨g, by rw [len]; exact low, there, ?_⟩
    have away : ¬ (f ≤ g ∧ g < f + 1) := by
      intro within
      have same : g = f := by omega
      subst same
      exact different (there.trans address.symm)
    rw [bits, used, decide_eq_false away]
    rfl
  obtain ⟨⟨start, aligned', nonzero, fits', tables⟩, heap, reserved, entries, taken, distinct⟩ := wired
  refine ⟨⟨start, aligned', nonzero, by rw [len]; exact fits', tables⟩, heap, reserved, ?_, ?_, ?_⟩
  · rintro other ⟨member', different⟩
    obtain ⟨paddr', holds, free, there⟩ := entries other member'
    refine ⟨paddr', kept paddr' holds ?_, free, there⟩
    rintro rfl
    exact different (distinct other member' page member (there.trans pte.symm))
  · intro other member'
    apply kept other (taken other member')
    rintro rfl
    exact apart member'
  · intro other member' third member''
    exact distinct other member'.1 third member''.1

/-! Page table entries. -/

theorem pageTableAdd_eq {vaddr paddr : Nat} (sized : Sized k) (heap : InHeap (vaddr / PG_SIZE)) :
    pageTableAdd k vaddr paddr = { k with pte := Function.update k.pte (vaddr / PG_SIZE) (entry paddr) } := by
  have table := sized.tables _ heap
  have idx : PDE_IDX vaddr = vaddr / PG_SIZE / 1024 := by
    rw [pdeIdx_eq]
    unfold InHeap PG_SIZE at *
    omega
  unfold pageTableAdd
  rw [idx, if_pos table]
  rfl

theorem Wired.pageTableAdd {vaddr paddr : Nat} (wired : Wired k claimed mapped loose)
    (heap : InHeap (vaddr / PG_SIZE)) (unmapped : vaddr / PG_SIZE ∉ mapped) (member : paddr ∈ loose) :
    Wired (pageTableAdd k vaddr paddr) claimed (insert (vaddr / PG_SIZE) mapped) (loose \ {paddr}) := by
  rw [pageTableAdd_eq wired.sized heap]
  have taken := wired.taken paddr member
  have other : ∀ page ∈ mapped, k.pte page ≠ entry paddr := by
    intro page inside same
    obtain ⟨paddr', holds, free, pte⟩ := wired.entries page inside
    have equal : paddr' = paddr :=
      entry_injective (holds.aligned wired.sized).1 (taken.aligned wired.sized).1 (pte.symm.trans same)
    exact free (equal ▸ member)
  generalize vaddr / PG_SIZE = page at *
  have old : ∀ q ∈ mapped, Function.update k.pte page (entry paddr) q = k.pte q := by
    intro q inside
    apply Function.update_of_ne
    rintro rfl
    exact unmapped inside
  obtain ⟨⟨start, aligned, nonzero, fits, tables⟩, heap', reserved, entries, taken', distinct⟩ := wired
  refine ⟨⟨start, aligned, nonzero, fits, tables⟩, heap', reserved, ?_, fun q inside => taken' q inside.1, ?_⟩
  · rintro q (rfl | inside)
    · exact ⟨paddr, taken, fun out => out.2 rfl, Function.update_self ..⟩
    · obtain ⟨paddr', holds, free, pte⟩ := entries q inside
      exact ⟨paddr', holds, fun out => free out.1, (old q inside).trans pte⟩
  · rintro q (rfl | inside) r (rfl | inside')
    · exact fun _ => rfl
    · simp only [Function.update_self, old r inside']
      exact fun same => absurd same.symm (other r inside')
    · simp only [Function.update_self, old q inside]
      exact fun same => absurd same (other q inside)
    · simp only [old q inside, old r inside']
      exact distinct q inside r inside'

theorem Wired.pageTableRemove {vaddr : Nat} (wired : Wired k claimed mapped loose)
    (unmapped : vaddr / PG_SIZE ∉ mapped) : Wired (pageTableRemove k vaddr) claimed mapped loose := by
  unfold Paging.pageTableRemove
  generalize k.pte (vaddr / PG_SIZE) &&& (2 ^ 32 - 1 - PG_P_1) = word
  generalize vaddr / PG_SIZE = page at *
  have old : ∀ q ∈ mapped, Function.update k.pte page word q = k.pte q := by
    intro q inside
    apply Function.update_of_ne
    rintro rfl
    exact unmapped inside
  obtain ⟨⟨start, aligned, nonzero, fits, tables⟩, heap, reserved, entries, taken, distinct⟩ := wired
  refine ⟨⟨start, aligned, nonzero, fits, tables⟩, heap, reserved, ?_, taken, ?_⟩
  · intro q inside
    obtain ⟨paddr, holds, free, pte⟩ := entries q inside
    exact ⟨paddr, holds, free, (old q inside).trans pte⟩
  · intro q inside r inside'
    simp only [old q inside, old r inside']
    exact distinct q inside r inside'

theorem Wired.addrV2p {vaddr : Nat} (wired : Wired k claimed mapped loose) (member : vaddr / PG_SIZE ∈ mapped)
    (aligned : vaddr % PG_SIZE = 0) :
    Taken k.pp (addrV2p k vaddr) ∧ k.pte (vaddr / PG_SIZE) = entry (addrV2p k vaddr) := by
  obtain ⟨paddr, taken, -, pte⟩ := wired.entries _ member
  obtain ⟨page, small⟩ := taken.aligned wired.sized
  have offset : vaddr &&& 0xfff = 0 := by
    rw [show (0xfff : Nat) = 2 ^ 12 - 1 by decide, Nat.and_two_pow_sub_one_eq_mod]
    exact aligned
  have same : Paging.addrV2p k vaddr = paddr := by
    rw [Paging.addrV2p, pte, entry_frame page small, offset, Nat.add_zero, Nat.mod_eq_of_lt small]
  rw [same]
  exact ⟨taken, pte⟩

/-- The pools as `pool_init` leaves them, whatever the size of the memory. -/
theorem poolInit_sized (k : Pages) (memTotalSize : Nat)
    (tables : ∀ page, InHeap page → present (k.pde (page / 1024)) = true) : Sized (poolInit k memTotalSize) := by
  refine ⟨rfl, ?_, ?_, ?_, tables⟩ <;> simp only [poolInit, bitmapReset, bitmapInit] <;> unfold PG_SIZE
  · decide
  · decide
  · split_ifs <;> omega

end KOS.PageWiring
