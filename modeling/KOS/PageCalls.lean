import KOS.PageWiring

/-! `page_acquire` and `page_release` as calls that nothing interrupts, and what they do to the
pages that are claimed. -/

namespace KOS.PageCalls
open KOS.PageBitmap KOS.Paging KOS.PageWiring

/-- The loop over the pages of `page_acquire`; `false` when a frame is missing. -/
def acquireLoop : Pages → (vaddrIdx pgCnt : Nat) → Bool × Pages
  | k, _, 0 => (true, k)
  | k, vaddrIdx, n + 1 =>
      let (paddr, pp) := palloc k.pp
      let k := { k with pp := pp }
      if paddr = 0 then (false, k)
      else acquireLoop (pageTableAdd k vaddrIdx paddr) ((vaddrIdx + PG_SIZE) % 2 ^ 32) n

/-- Address 0 is NULL. What was reserved and mapped before a failure stays so. -/
def pageAcquire (k : Pages) (vaddr pgCnt : Nat) : Nat × Pages :=
  let (vaddrRet, vp) := vaddrAcquire k.vp vaddr pgCnt
  let k := { k with vp := vp }
  if vaddrRet = 0 then (0, k)
  else
    let (mapped, k) := acquireLoop k vaddrRet pgCnt
    if mapped then (vaddrRet, k) else (0, k)

def releaseLoop : Pages → (vaddrIdx pgCnt : Nat) → Option Pages
  | k, _, 0 => some k
  | k, vaddrIdx, n + 1 =>
      (pfree k.pp (addrV2p k vaddrIdx)).bind fun pp =>
        releaseLoop (pageTableRemove { k with pp := pp } vaddrIdx) ((vaddrIdx + PG_SIZE) % 2 ^ 32) n

/-- `none` if an assertion of the bitmaps fails. -/
def pageRelease (k : Pages) (vaddr pgCnt : Nat) : Option Pages :=
  (releaseLoop k vaddr pgCnt).bind fun k =>
    (vaddrRelease k.vp vaddr pgCnt).map fun vp => { k with vp := vp }

variable {k k' : Pages} {C M : Set Nat}

/-- The pages from `first` on, as a set. -/
def pagesFrom (first n : Nat) : Set Nat := {page | first ≤ page ∧ page < first + n}

theorem acquireLoop_wired {vaddrIdx n : Nat} {done : Bool} (wired : Wired k C M ∅) (aligned : vaddrIdx % PG_SIZE = 0)
    (heap : ∀ page ∈ pagesFrom (vaddrIdx / PG_SIZE) n, InHeap page)
    (fresh : ∀ page ∈ pagesFrom (vaddrIdx / PG_SIZE) n, page ∉ M) (ran : acquireLoop k vaddrIdx n = (done, k')) :
    Wired k' C M ∅ ∧ k'.vp = k.vp ∧ (done = true → Wired k' C (M ∪ pagesFrom (vaddrIdx / PG_SIZE) n) ∅) ∧
      ∀ page, page ∉ pagesFrom (vaddrIdx / PG_SIZE) n → k'.pte page = k.pte page := by
  induction n generalizing k vaddrIdx M with
  | zero =>
    cases ran
    refine ⟨wired, rfl, fun _ => wired.weaken subset_rfl ?_ subset_rfl, fun _ _ => rfl⟩
    rintro page (old | ⟨low, high⟩)
    · exact old
    · omega
  | succ n ih =>
    have first : InHeap (vaddrIdx / PG_SIZE) := heap _ ⟨le_rfl, by omega⟩
    have bare : vaddrIdx / PG_SIZE ∉ M := fresh _ ⟨le_rfl, by omega⟩
    cases got : palloc k.pp with
    | mk paddr pp =>
      simp only [acquireLoop, got] at ran
      by_cases null : paddr = 0
      · rw [if_pos null] at ran
        cases ran
        rcases palloc_spec wired.sized got with ⟨-, same⟩ | ⟨some, -⟩
        · subst same
          exact ⟨wired, rfl, (fun no => absurd no Bool.false_ne_true), fun _ _ => rfl⟩
        · exact absurd null some
      · rw [if_neg null] at ran
        obtain ⟨-, handed⟩ := wired.palloc got null
        have added := handed.pageTableAdd first bare (Set.mem_insert paddr ∅)
        have entries : pageTableAdd { k with pp := pp } vaddrIdx paddr = _ := pageTableAdd_eq handed.sized first
        have step : Wired (pageTableAdd { k with pp := pp } vaddrIdx paddr) C (insert (vaddrIdx / PG_SIZE) M) ∅ :=
          added.weaken subset_rfl subset_rfl (Set.empty_subset _)
        by_cases last : n = 0
        · subst last
          cases ran
          refine ⟨step.weaken subset_rfl (Set.subset_insert _ _) subset_rfl, by rw [entries], ?_, ?_⟩
          · intro _
            apply step.weaken subset_rfl _ subset_rfl
            rintro page (old | ⟨low, high⟩)
            · exact Set.mem_insert_of_mem _ old
            · have same : page = vaddrIdx / PG_SIZE := by omega
              exact Set.mem_insert_iff.mpr (.inl same)
          · intro page outside
            rw [entries]
            apply Function.update_of_ne
            rintro rfl
            exact outside ⟨le_rfl, by omega⟩
        · have second : InHeap (vaddrIdx / PG_SIZE + 1) := heap _ ⟨by omega, by omega⟩
          have next : (vaddrIdx + PG_SIZE) % 2 ^ 32 / PG_SIZE = vaddrIdx / PG_SIZE + 1 ∧
              (vaddrIdx + PG_SIZE) % 2 ^ 32 % PG_SIZE = 0 := by
            obtain ⟨-, below⟩ := second
            unfold PG_SIZE at *
            omega
          obtain ⟨page, aligned'⟩ := next
          have later : ∀ q ∈ pagesFrom (vaddrIdx / PG_SIZE + 1) n,
              q ∈ pagesFrom (vaddrIdx / PG_SIZE) (n + 1) ∧ q ≠ vaddrIdx / PG_SIZE := by
            rintro q ⟨low, high⟩
            exact ⟨⟨by omega, by omega⟩, by omega⟩
          rw [← page] at later
          obtain ⟨kept, vp, full, ptes⟩ := ih step aligned' (fun q inside => heap q (later q inside).1)
            (fun q inside => by
              rintro (rfl | old)
              · exact (later _ inside).2 rfl
              · exact fresh q (later q inside).1 old) ran
          rw [page] at full ptes
          refine ⟨kept.weaken subset_rfl (Set.subset_insert _ _) subset_rfl, by rw [vp, entries], ?_, ?_⟩
          · intro done
            apply (full done).weaken subset_rfl _ subset_rfl
            rintro q (old | ⟨low, high⟩)
            · exact .inl (Set.mem_insert_of_mem _ old)
            · by_cases same : q = vaddrIdx / PG_SIZE
              · exact .inl (Set.mem_insert_iff.mpr (.inl same))
              · exact .inr ⟨by omega, by omega⟩
          · intro q outside
            rw [ptes q (fun inside => outside ⟨by have := inside.1; omega, by have := inside.2; omega⟩), entries]
            apply Function.update_of_ne
            rintro rfl
            exact outside ⟨le_rfl, by omega⟩

theorem mem_pagesFrom {start n page : Nat} : page ∈ span start n ↔ page ∈ pagesFrom (start / PG_SIZE) n := mem_span

/-- A failed call changes no claimed page; a granted one hands out pages that nobody claimed. -/
theorem pageAcquire_wired {vaddr n start : Nat} (wired : Wired k C M ∅) (within : M ⊆ C)
    (request : Request k.vp vaddr n) (ran : pageAcquire k vaddr n = (start, k')) :
    (∀ page, page ∈ C ∨ ¬ InHeap page → k'.pte page = k.pte page) ∧
      (start = 0 ∧ Wired k' C M ∅ ∨
        start ≠ 0 ∧ start % PG_SIZE = 0 ∧ start < 2 ^ 32 ∧
          (∀ page ∈ pagesFrom (start / PG_SIZE) n, InHeap page ∧ page ∉ C) ∧
          Wired k' (C ∪ pagesFrom (start / PG_SIZE) n) (M ∪ pagesFrom (start / PG_SIZE) n) ∅) := by
  cases reserved : vaddrAcquire k.vp vaddr n with
  | mk vaddrRet vp =>
    simp only [pageAcquire, reserved] at ran
    rcases wired.vaddrAcquire request reserved with ⟨null, wires⟩ | ⟨some, aligned, small, free, wires⟩
    · rw [if_pos null] at ran
      cases ran
      exact ⟨fun _ _ => rfl, .inl ⟨rfl, wires⟩⟩
    · rw [if_neg some] at ran
      have fresh : ∀ page ∈ pagesFrom (vaddrRet / PG_SIZE) n, InHeap page ∧ page ∉ C := by
        intro page inside
        obtain ⟨heap, clear⟩ := free page (mem_pagesFrom.mpr inside)
        exact ⟨heap, fun claim => clear (wired.reserved page claim)⟩
      have same : {page | page ∈ span vaddrRet n} = pagesFrom (vaddrRet / PG_SIZE) n := by
        ext page
        exact mem_pagesFrom
      rw [same] at wires
      cases loop : acquireLoop { k with vp := vp } vaddrRet n with
      | mk done k'' =>
        obtain ⟨kept, -, full, ptes⟩ := acquireLoop_wired wires aligned (fun page inside => (fresh page inside).1)
          (fun page inside old => (fresh page inside).2 (within old)) loop
        have outside : ∀ page, page ∈ C ∨ ¬ InHeap page → page ∉ pagesFrom (vaddrRet / PG_SIZE) n := by
          rintro page (claim | low) inside
          · exact (fresh page inside).2 claim
          · exact low (fresh page inside).1
        rw [loop] at ran
        cases done with
        | false =>
          cases ran
          exact ⟨fun page old => ptes page (outside page old),
            .inl ⟨rfl, kept.weaken Set.subset_union_left subset_rfl subset_rfl⟩⟩
        | true =>
          cases ran
          exact ⟨fun page old => ptes page (outside page old), .inr ⟨some, aligned, small, fresh, full rfl⟩⟩

/-! `page_release`. -/

theorem pfree_ready {page : Nat} (wired : Wired k C M ∅) (member : page ∈ M) :
    ∃ pp, pfree k.pp (addrV2p k (page * PG_SIZE)) = some pp ∧
      Wired (pageTableRemove { k with pp := pp } (page * PG_SIZE)) C (M \ {page}) ∅ := by
  have index : page * PG_SIZE / PG_SIZE = page := Nat.mul_div_cancel _ (by decide)
  have aligned : page * PG_SIZE % PG_SIZE = 0 := Nat.mul_mod_left ..
  obtain ⟨taken, pte⟩ := wired.addrV2p (by rw [index]; exact member) aligned
  rw [index] at pte
  have frame := (taken.aligned wired.sized).1
  obtain ⟨f, below, address, used⟩ := taken
  have idx : (addrV2p k (page * PG_SIZE) + (2 ^ 32 - k.pp.paddrStart)) % 2 ^ 32 / PG_SIZE = f := by
    rw [address]
    exact wired.sized.index below
  obtain ⟨btmp, released⟩ : ∃ btmp, bitmapRelease k.pp.paddrBitmap f 1 = some btmp := by
    apply bitmapRelease_ready
    intro j low high
    rw [show j = f by omega]
    exact used
  have freed : pfree k.pp (addrV2p k (page * PG_SIZE)) = some { k.pp with paddrBitmap := btmp } := by
    rw [pfree, idx, released]
    rfl
  refine ⟨_, freed, ?_⟩
  apply (wired.pfree member pte frame freed).pageTableRemove
  rw [index]
  exact fun old => old.2 rfl

theorem releaseLoop_wired {page n : Nat} (wired : Wired k C M ∅) (heap : ∀ q ∈ pagesFrom page n, InHeap q)
    (mapped : pagesFrom page n ⊆ M) :
    ∃ k', releaseLoop k (page * PG_SIZE) n = some k' ∧ k'.vp = k.vp ∧ Wired k' C (M \ pagesFrom page n) ∅ ∧
      (∀ q ∉ pagesFrom page n, k'.pte q = k.pte q) ∧ ∀ q ∈ pagesFrom page n, present (k'.pte q) = false := by
  induction n generalizing k page M with
  | zero =>
    refine ⟨k, rfl, rfl, wired.weaken subset_rfl Set.sdiff_subset subset_rfl, fun _ _ => rfl, ?_⟩
    rintro q ⟨low, high⟩
    omega
  | succ n ih =>
    have first : page ∈ pagesFrom page (n + 1) := ⟨le_rfl, by omega⟩
    have below := (heap page first).2
    have index : page * PG_SIZE / PG_SIZE = page := Nat.mul_div_cancel _ (by decide)
    have next : (page * PG_SIZE + PG_SIZE) % 2 ^ 32 = (page + 1) * PG_SIZE := by
      unfold PG_SIZE
      omega
    obtain ⟨pp, freed, wires⟩ := pfree_ready wired (mapped first)
    have later : ∀ q ∈ pagesFrom (page + 1) n, q ∈ pagesFrom page (n + 1) ∧ q ≠ page := by
      rintro q ⟨low, high⟩
      exact ⟨⟨by omega, by omega⟩, by omega⟩
    obtain ⟨k', ran, vp, wires', ptes, gone⟩ := ih wires (fun q inside => heap q (later q inside).1)
      (fun q inside => ⟨mapped (later q inside).1, (later q inside).2⟩)
    have removed : ∀ q, (pageTableRemove { k with pp := pp } (page * PG_SIZE)).pte q =
        Function.update k.pte page (k.pte page &&& (2 ^ 32 - 1 - PG_P_1)) q := by
      intro q
      rw [pageTableRemove, index]
    refine ⟨k', ?_, vp, ?_, ?_, ?_⟩
    · rw [releaseLoop, freed, Option.bind_some, next]
      exact ran
    · apply wires'.weaken subset_rfl _ subset_rfl
      rintro q ⟨member, outside⟩
      refine ⟨⟨member, ?_⟩, fun inside => outside (later q inside).1⟩
      rintro rfl
      exact outside first
    · intro q outside
      rw [ptes q (fun inside => outside (later q inside).1), removed]
      apply Function.update_of_ne
      rintro rfl
      exact outside first
    · rintro q ⟨low, high⟩
      by_cases same : q = page
      · rw [same, ptes page (fun inside => (later page inside).2 rfl), removed, Function.update_self]
        exact removed_absent _
      · exact gone q ⟨by omega, by omega⟩

/-- Claimed pages can always be released. -/
theorem pageRelease_wired {page n : Nat} (wired : Wired k C M ∅) (claims : pagesFrom page n ⊆ C)
    (mapped : pagesFrom page n ⊆ M) :
    ∃ k', pageRelease k (page * PG_SIZE) n = some k' ∧ Wired k' (C \ pagesFrom page n) (M \ pagesFrom page n) ∅ ∧
      (∀ q ∉ pagesFrom page n, k'.pte q = k.pte q) ∧ ∀ q ∈ pagesFrom page n, present (k'.pte q) = false := by
  have heap : ∀ q ∈ pagesFrom page n, InHeap q := fun q inside => wired.heap q (claims inside)
  obtain ⟨k'', ran, vp, wires, ptes, gone⟩ := releaseLoop_wired wired heap mapped
  have index : page * PG_SIZE / PG_SIZE = page := Nat.mul_div_cancel _ (by decide)
  have run : ∀ q, q ∈ span (page * PG_SIZE) n ↔ q ∈ pagesFrom page n := by
    intro q
    rw [mem_pagesFrom, index]
  obtain ⟨vp', released⟩ : ∃ vp', vaddrRelease k''.vp (page * PG_SIZE) n = some vp' := by
    rw [vp]
    by_cases none : n = 0
    · rw [none]
      exact ⟨_, rfl⟩
    · have first : page ∈ pagesFrom page n := ⟨le_rfl, by omega⟩
      have bounds := heap page first
      unfold InHeap at bounds
      have idx : pageIdx k.vp (page * PG_SIZE) = page - 0xC0100 := by
        unfold pageIdx
        rw [wired.sized.start]
        unfold PG_SIZE K_HEAP_START
        omega
      rw [vaddrRelease, idx]
      obtain ⟨btmp, done⟩ : ∃ btmp, bitmapRelease k.vp.vaddrBitmap (page - 0xC0100) n = some btmp := by
        apply bitmapRelease_ready
        intro j low high
        have reserved := wired.reserved (0xC0100 + j) (claims ⟨by omega, by omega⟩)
        rw [Reserved, Nat.add_sub_cancel_left] at reserved
        exact reserved
      rw [done]
      exact ⟨_, rfl⟩
  refine ⟨{ k'' with vp := vp' }, ?_, ?_, ptes, gone⟩
  · rw [pageRelease, ran, Option.bind_some, released]
    rfl
  · by_cases none : n = 0
    · have same : vp' = k''.vp := by
        rw [none] at released
        exact (Option.some.inj released).symm
      rw [same]
      exact wires.weaken Set.sdiff_subset subset_rfl subset_rfl
    · have below : page * PG_SIZE < 2 ^ 32 := by
        have bounds := (heap page ⟨le_rfl, by omega⟩).2
        unfold PG_SIZE
        omega
      have kept := wires.vaddrRelease (fun q inside => heap q ((run q).mp inside)) below released
      have same : {q | q ∈ span (page * PG_SIZE) n} = pagesFrom page n := by
        ext q
        exact run q
      rw [same] at kept
      exact kept

end KOS.PageCalls
