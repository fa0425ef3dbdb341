import KOS.PageAlloc

/-! The TLB under `page_malloc` and `page_free`: what `page_table_remove` invalidates. -/

namespace KOS.Tlb
open KOS.Paging KOS.PageWiring KOS.PageAlloc KOS.Machine

variable {τ : Type*} [DecidableEq τ]

/-- The translations that the processor has cached, as page table entries. -/
structure Cpu (τ : Type*) where
  kernel : PageAlloc.Kernel τ
  tlb : Nat → Option Nat

inductive Event (τ : Type*) where
  /-- A call or a critical section of `page_malloc` or `page_free`. -/
  | pages (e : PageAlloc.Event τ)
  /-- An access makes the processor cache the translation of a present page. -/
  | cache (page : Nat)

/-- The page whose entry the next critical section of `t` removes. -/
def removing (k : PageAlloc.Kernel τ) : PageAlloc.Event τ → Option (τ × Nat)
  | .exec t =>
      match k.pc t with
      | .remove start _ i => some (t, vaddrIdx start i / PG_SIZE)
      | _ => none
  | _ => none

/-- `invlpg %0` with `"m"(vaddr)` names the parameter itself, which is on the stack of the
thread that runs `page_table_remove`. -/
def invlpg (stackPage : τ → Nat) (tlb : Nat → Option Nat) : Option (τ × Nat) → Nat → Option Nat
  | none => tlb
  | some (t, _) => Function.update tlb (stackPage t) none

def step (stackPage : τ → Nat) (c : Cpu τ) : Event τ → Option (Cpu τ)
  | .pages e => (PageAlloc.step c.kernel e).map fun k => ⟨k, invlpg stackPage c.tlb (removing c.kernel e)⟩
  | .cache page =>
      if c.tlb page = none ∧ present (c.kernel.pages.pte page) then
        some { c with tlb := Function.update c.tlb page (some (c.kernel.pages.pte page)) }
      else none

/-- Where the processor finds a page: in the TLB, or else in the page table. -/
def translate (c : Cpu τ) (page : Nat) : Option Nat :=
  match c.tlb page with
  | some word => some (word &&& 0xfffff000)
  | none =>
      if present (c.kernel.pages.pte page) then some (c.kernel.pages.pte page &&& 0xfffff000) else none

/-- The calls are in order. -/
def Calls (c : Cpu τ) : Event τ → Prop
  | .pages e => Permitted c.kernel e
  | .cache _ => True

/-- Besides, no removed page has an entry in the TLB. -/
def Uncached (c : Cpu τ) : Event τ → Prop
  | .pages e => Permitted c.kernel e ∧ ∀ removed ∈ removing c.kernel e, c.tlb removed.2 = none
  | .cache _ => True

instance (c : Cpu τ) : DecidablePred (Calls c)
  | .pages e => inferInstanceAs (Decidable (Permitted c.kernel e))
  | .cache _ => isTrue trivial

instance (c : Cpu τ) : DecidablePred (Uncached c)
  | .pages e => inferInstanceAs (Decidable (Permitted c.kernel e ∧ ∀ removed ∈ removing c.kernel e, c.tlb removed.2 = none))
  | .cache _ => isTrue trivial

/-! Pages without an entry. -/

/-- The pages of a call that are not mapped yet, or not any more. -/
def bare : Pc → List Nat
  | .frame start n i | .add start n i _ => List.range' (start / PG_SIZE + i) (n - i)
  | .resolve start _ i | .free start _ i _ | .remove start _ i => span start i
  | .unreserve start n => span start n
  | .client | .reserve _ _ => []

structure Bare (k : PageAlloc.Kernel τ) : Prop where
  free : ∀ page, InHeap page → ¬ Reserved k.pages.vp page → present (k.pages.pte page) = false
  call : ∀ t, ∀ page ∈ bare (k.pc t), present (k.pages.pte page) = false

variable {k k' : PageAlloc.Kernel τ}

theorem bare_held {pages : Pages} {pc : Pc} (shaped : Shaped pages pc) {page : Nat} (member : page ∈ bare pc) :
    page ∈ held pc := by
  cases pc <;> simp only [bare, held, span, List.mem_range'_1, List.not_mem_nil] at member ⊢ <;>
    simp only [Shaped] at shaped <;> omega

/-- One thread moves, and at most the entry of one page of its call changes. -/
theorem Bare.replace {t : τ} {pc : Pc} (bares : Bare k) (inv : Inv k)
    (moved : k'.pc = Function.update k.pc t pc)
    (pte : ∀ page, k'.pages.pte page = k.pages.pte page ∨ page ∈ held (k.pc t))
    (free : ∀ page, InHeap page → ¬ Reserved k'.pages.vp page →
      ¬ Reserved k.pages.vp page ∧ page ∉ held (k.pc t) ∨ page ∈ bare (k.pc t) ∧ k'.pages.pte page = k.pages.pte page)
    (call : ∀ page ∈ bare pc, present (k'.pages.pte page) = false) : Bare k' := by
  constructor
  · intro page heap clear
    rcases free page heap clear with ⟨before, outside⟩ | ⟨mine, same⟩
    · rcases pte page with same | inside
      · rw [same]
        exact bares.free page heap before
      · exact absurd inside outside
    · rw [same]
      exact bares.call t page mine
  · intro u page member
    rw [moved] at member
    by_cases same : u = t
    · rw [same, Function.update_self] at member
      exact call page member
    · rw [Function.update_of_ne same] at member
      rcases pte page with unchanged | inside
      · rw [unchanged]
        exact bares.call u page member
      · have claim : page ∈ claims k u := List.mem_append_right _ (bare_held (inv.shaped u) member)
        exact absurd claim ((inv.held_page inside).2.2 u same)

/-- A step that neither changes an entry nor releases a page. -/
theorem Bare.turn {t : τ} {pc : Pc} (bares : Bare k) (inv : Inv k) (moved : k'.pc = Function.update k.pc t pc)
    (pte : k'.pages.pte = k.pages.pte) (grows : ∀ page, Reserved k.pages.vp page → Reserved k'.pages.vp page)
    (call : ∀ page ∈ bare pc, present (k.pages.pte page) = false) : Bare k' := by
  apply bares.replace inv moved
  · intro page
    rw [pte]
    exact .inl rfl
  · intro page heap clear
    have before : ¬ Reserved k.pages.vp page := fun reserved => clear (grows page reserved)
    refine .inl ⟨before, ?_⟩
    intro inside
    exact before (inv.wiring.reserved page ⟨t, List.mem_append_right _ inside⟩)
  · rw [pte]
    exact call

/-- A step that changes the entry of one page of its call. -/
theorem Bare.entry {t : τ} {pc : Pc} {page : Nat} (bares : Bare k) (inv : Inv k)
    (moved : k'.pc = Function.update k.pc t pc) (mine : page ∈ held (k.pc t))
    (others : ∀ q, q ≠ page → k'.pages.pte q = k.pages.pte q) (vp : k'.pages.vp = k.pages.vp)
    (call : ∀ q ∈ bare pc, if q = page then present (k'.pages.pte page) = false else q ∈ bare (k.pc t)) : Bare k' := by
  refine bares.replace inv moved ?_ ?_ ?_
  · intro q
    by_cases same : q = page
    · exact .inr (same ▸ mine)
    · exact .inl (others q same)
  · intro q _ clear
    rw [vp] at clear
    refine .inl ⟨clear, ?_⟩
    intro inside
    exact clear (inv.wiring.reserved q ⟨t, List.mem_append_right _ inside⟩)
  · intro q member
    have outcome := call q member
    by_cases same : q = page
    · rw [if_pos same] at outcome
      rw [same]
      exact outcome
    · rw [if_neg same] at outcome
      rw [others q same]
      exact bares.call t q outcome

theorem Bare.exec {t : τ} (bares : Bare k) (inv : Inv k) (requests : (k.pc t).Requests k.pages.vp)
    (ran : exec k t = some k') : Bare k' := by
  have shaped := inv.shaped t
  have mine := bares.call t
  cases exec_cases ran with
  | reserve vaddr n start vp pc acquired =>
    rw [pc] at requests
    refine bares.turn inv rfl rfl (fun page => vaddrAcquire_grows requests.1 acquired) ?_
    intro page member
    rcases inv.wiring.vaddrAcquire requests acquired with ⟨null, -⟩ | ⟨some, -, -, fresh, -⟩
    · rw [if_pos null] at member
      cases member
    · rw [if_neg some] at member
      obtain ⟨heap, clear⟩ := fresh page member
      exact bares.free page heap clear
  | grant start n pc =>
    refine bares.turn inv rfl rfl (fun _ => id) ?_
    exact fun page none => absurd none List.not_mem_nil
  | frame start n i paddr pp pc more got =>
    rw [pc] at mine
    refine bares.turn inv rfl rfl (fun _ => id) ?_
    intro page member
    split_ifs at member
    · cases member
    · exact mine page member
  | add start n i paddr pc =>
    rw [pc] at shaped
    obtain ⟨below, aligned, -⟩ := shaped
    have member : start / PG_SIZE + i ∈ held (k.pc t) := by
      rw [pc]
      exact mem_span.mpr ⟨by omega, by omega⟩
    obtain ⟨heap, -, -⟩ := inv.held_page member
    obtain ⟨page, -⟩ := vaddrIdx_page aligned heap
    rw [← page] at heap
    have added : pageTableAdd k.pages (vaddrIdx start i) paddr = _ := pageTableAdd_eq inv.wiring.sized heap
    rw [page] at added
    apply bares.entry inv rfl member
    · intro q different
      show (pageTableAdd k.pages (vaddrIdx start i) paddr).pte q = _
      rw [added]
      exact Function.update_of_ne different ..
    · show (pageTableAdd k.pages (vaddrIdx start i) paddr).vp = _
      rw [added]
    · intro q later
      rw [bare, List.mem_range'_1] at later
      rw [if_neg (by omega), pc, bare, List.mem_range'_1]
      omega
  | unmapped start n pc =>
    rw [pc] at mine
    exact bares.turn inv rfl rfl (fun _ => id) mine
  | resolve start n i pc more =>
    rw [pc] at mine
    exact bares.turn inv rfl rfl (fun _ => id) mine
  | free start n i paddr pp pc freed =>
    rw [pc] at mine
    exact bares.turn inv rfl rfl (fun _ => id) mine
  | remove start n i pc =>
    rw [pc] at shaped
    obtain ⟨below, aligned, -⟩ := shaped
    have member : start / PG_SIZE + i ∈ held (k.pc t) := by
      rw [pc]
      exact mem_span.mpr ⟨by omega, by omega⟩
    obtain ⟨page, -⟩ := vaddrIdx_page aligned (inv.held_page member).1
    apply bares.entry inv rfl member
    · intro q different
      show (pageTableRemove k.pages (vaddrIdx start i)).pte q = _
      rw [pageTableRemove, page]
      exact Function.update_of_ne different ..
    · rfl
    · intro q removed
      rw [bare, mem_span] at removed
      by_cases same : q = start / PG_SIZE + i
      · rw [if_pos same]
        show present ((pageTableRemove k.pages (vaddrIdx start i)).pte (start / PG_SIZE + i)) = false
        rw [pageTableRemove, page]
        simp only [Function.update_self]
        exact removed_absent _
      · rw [if_neg same, pc, bare, mem_span]
        omega
  | unreserve start n vp pc released =>
    rw [pc] at shaped
    have member : ∀ page ∈ span start n, page ∈ held (k.pc t) := by
      intro page inside
      rw [pc]
      exact inside
    refine bares.replace inv rfl (fun _ => .inl rfl) ?_ (fun page none => absurd none List.not_mem_nil)
    intro q inHeap clear
    by_cases inside : q ∈ span start n
    · rw [pc]
      exact .inr ⟨inside, rfl⟩
    · left
      have before : ¬ Reserved k.pages.vp q := by
        intro reserved
        apply clear
        exact vaddrRelease_keeps inv.wiring.sized.start (fun page inside => (inv.held_page (member page inside)).1)
          shaped.2 released inHeap reserved inside
      rw [pc]
      exact ⟨before, inside⟩

theorem Bare.step {e : PageAlloc.Event τ} (bares : Bare k) (inv : Inv k) (permitted : Permitted k e)
    (moved : PageAlloc.step k e = some k') : Bare k' := by
  cases e with
  | exec t => exact bares.exec inv permitted moved
  | malloc t vaddr n =>
    simp only [PageAlloc.step] at moved
    split_ifs at moved
    cases moved
    exact bares.turn inv rfl rfl (fun _ => id) (fun page none => absurd none List.not_mem_nil)
  | free t vaddr n =>
    simp only [PageAlloc.step] at moved
    split_ifs at moved
    cases moved
    refine bares.turn inv rfl rfl (fun _ => id) ?_
    intro page member
    rw [bare, mem_span] at member
    omega

/-! Coherence. -/

/-- What the TLB holds for the pages of the heap is in the page table. -/
structure Coherent (c : Cpu τ) : Prop where
  inv : PageAlloc.Inv c.kernel
  bares : Bare c.kernel
  cached : ∀ page word, InHeap page → c.tlb page = some word →
    c.kernel.pages.pte page = word ∧ present word = true

/-- The entry that a step writes or clears. -/
theorem step_pte {e : PageAlloc.Event τ} {page : Nat} (inv : PageAlloc.Inv k) (bares : Bare k)
    (moved : PageAlloc.step k e = some k') (used : present (k.pages.pte page) = true)
    (elsewhere : ∀ removed ∈ removing k e, removed.2 ≠ page) : k'.pages.pte page = k.pages.pte page := by
  cases e with
  | malloc t vaddr n =>
    simp only [PageAlloc.step] at moved
    split_ifs at moved
    cases moved
    rfl
  | free t vaddr n =>
    simp only [PageAlloc.step] at moved
    split_ifs at moved
    cases moved
    rfl
  | exec t =>
    have shaped := inv.shaped t
    cases exec_cases (show exec k t = some k' from moved) with
    | add start n i paddr pc =>
      rw [pc] at shaped
      have member : start / PG_SIZE + i ∈ held (k.pc t) := by
        rw [pc]
        exact mem_span.mpr ⟨by omega, by have below := shaped.1; omega⟩
      obtain ⟨heap, -, -⟩ := inv.held_page member
      obtain ⟨here, -⟩ := vaddrIdx_page shaped.2.1 heap
      have coming : start / PG_SIZE + i ∈ bare (k.pc t) := by
        rw [pc, bare, List.mem_range'_1]
        have below := shaped.1
        omega
      have other : page ≠ start / PG_SIZE + i := by
        rintro rfl
        rw [bares.call t _ coming] at used
        cases used
      rw [goto, setPages, pageTableAdd_eq inv.wiring.sized (by rw [here]; exact heap), here]
      exact Function.update_of_ne other ..
    | remove start n i pc =>
      have other := elsewhere (t, vaddrIdx start i / PG_SIZE) (by simp [removing, pc])
      exact Function.update_of_ne (Ne.symm other) ..
    | _ => rfl

theorem Coherent.step {stackPage : τ → Nat} {c c' : Cpu τ} {e : Event τ} (coherent : Coherent c)
    (uncached : Uncached c e) (moved : step stackPage c e = some c') : Coherent c' := by
  obtain ⟨inv, bares, cached⟩ := coherent
  cases e with
  | cache page =>
    simp only [Tlb.step] at moved
    split_ifs at moved with fill
    cases moved
    refine ⟨inv, bares, ?_⟩
    intro q word heap entry
    simp only at entry
    by_cases same : q = page
    · subst same
      rw [Function.update_self] at entry
      cases entry
      exact ⟨rfl, fill.2⟩
    · rw [Function.update_of_ne same] at entry
      exact cached q word heap entry
  | pages e =>
    obtain ⟨k, ran, rfl⟩ := Option.map_eq_some_iff.mp moved
    obtain ⟨permitted, clean⟩ := uncached
    refine ⟨inv.step permitted ran, bares.step inv permitted ran, ?_⟩
    intro page word heap entry
    have before : c.tlb page = some word := by
      cases removed : removing c.kernel e with
      | none =>
        rw [removed] at entry
        exact entry
      | some pair =>
        rw [removed] at entry
        simp only [invlpg] at entry
        by_cases stack : page = stackPage pair.1
        · rw [stack, Function.update_self] at entry
          cases entry
        · rwa [Function.update_of_ne stack] at entry
    obtain ⟨same, used⟩ := cached page word heap before
    refine ⟨?_, used⟩
    rw [← same]
    apply step_pte inv bares ran (by rw [same]; exact used)
    rintro removed member rfl
    rw [clean removed member] at before
    cases before

/-- Nothing is cached or mapped yet. -/
structure Start (c : Cpu τ) : Prop where
  kernel : PageAlloc.Start c.kernel
  empty : ∀ page, InHeap page → c.tlb page = none
  unmapped : ∀ page, InHeap page → present (c.kernel.pages.pte page) = false

omit [DecidableEq τ] in
theorem Start.coherent {c : Cpu τ} (start : Start c) : Coherent c := by
  refine ⟨start.kernel.inv, ⟨fun page heap _ => start.unmapped page heap, ?_⟩, ?_⟩
  · intro t page member
    rw [start.kernel.idle] at member
    cases member
  · intro page word heap entry
    rw [start.empty page heap] at entry
    cases entry

/-- In every run that removes uncached pages only, an allocated page is found where its entry
says, and a page without an entry is not found in the TLB. -/
theorem reach_coherent {stackPage : τ → Nat} {c c' : Cpu τ} (start : Start c)
    (run : Reach (step stackPage) Uncached c c') :
    (∀ t, ∀ page ∈ c'.kernel.owned t, translate c' page = some (c'.kernel.pages.pte page &&& 0xfffff000)) ∧
      ∀ page, InHeap page → present (c'.kernel.pages.pte page) = false → c'.tlb page = none := by
  have kept : ∀ (before : Cpu τ) e after, Coherent before → Uncached before e → step stackPage before e = some after →
      Coherent after := fun before e after coherent uncached moved => coherent.step uncached moved
  obtain ⟨inv, -, cached⟩ := Reach.invariant kept start.coherent run
  constructor
  · intro t page own
    have claim : page ∈ claimed c'.kernel := ⟨t, List.mem_append_left _ own⟩
    obtain ⟨paddr, taken, -, pte⟩ := inv.wiring.entries page ⟨t, .inl own⟩
    have used : present (c'.kernel.pages.pte page) = true := by
      rw [pte]
      exact entry_present (taken.aligned inv.wiring.sized).1
    unfold translate
    cases entry : c'.tlb page with
    | none => simp only [used, if_true]
    | some word =>
      obtain ⟨same, -⟩ := cached page word (inv.wiring.heap page claim) entry
      rw [same]
  · intro page heap absent
    cases entry : c'.tlb page with
    | none => rfl
    | some word =>
      obtain ⟨same, used⟩ := cached page word heap entry
      rw [same, used] at absent
      cases absent

/-! Threads on two stack pages, and a pool of eight frames. -/

def stackPage (t : Nat) : Nat := 0xC009E + t

def cold : Cpu Nat := ⟨small, fun _ => none⟩

theorem cold_start : Start cold := ⟨small_start, fun _ _ => rfl, fun _ _ => removed_absent 0⟩

/-- `page_malloc(PF_KERNEL, vaddr, 1)` by one thread, without interruption. -/
def mallocs (t vaddr : Nat) : List (Event Nat) :=
  .pages (.malloc t vaddr 1) :: List.replicate 4 (.pages (.exec t))

def frees (t vaddr : Nat) : List (Event Nat) :=
  .pages (.free t vaddr 1) :: List.replicate 5 (.pages (.exec t))

/-- The page is freed before it is accessed. -/
def unread : List (Event Nat) := mallocs 0 0 ++ frees 0 0xC0100000 ++ mallocs 0 0 ++ [.cache 0xC0100]

theorem unread_plays : (play (step stackPage) Uncached cold unread).isSome := by
  decide +kernel

def fresh : Cpu Nat := (play (step stackPage) Uncached cold unread).get unread_plays

theorem unread_coherent :
    (∀ t, ∀ page ∈ fresh.kernel.owned t, translate fresh page = some (fresh.kernel.pages.pte page &&& 0xfffff000)) ∧
      ∀ page, InHeap page → present (fresh.kernel.pages.pte page) = false → fresh.tlb page = none :=
  reach_coherent cold_start (reach_of_play (Option.some_get unread_plays).symm)

/-- The page is accessed and freed, and mapped to another frame when it is allocated again. -/
def reread : List (Event Nat) :=
  mallocs 0 0 ++ .cache 0xC0100 :: frees 0 0xC0100000 ++ mallocs 1 0xC0200000 ++ mallocs 0 0

theorem reread_plays : (play (step stackPage) Calls cold reread).isSome := by
  decide +kernel

def stale : Cpu Nat := (play (step stackPage) Calls cold reread).get reread_plays

theorem stale_state :
    0xC0100 ∈ stale.kernel.owned 0 ∧ translate stale 0xC0100 = some 0x200000 ∧
      stale.kernel.pages.pte 0xC0100 &&& 0xfffff000 = 0x201000 := by
  decide +kernel

theorem reread_stale :
    Start cold ∧ Reach (step stackPage) Calls cold stale ∧
      ¬ ∀ t, ∀ page ∈ stale.kernel.owned t, translate stale page = some (stale.kernel.pages.pte page &&& 0xfffff000) := by
  obtain ⟨own, found, frame⟩ := stale_state
  refine ⟨cold_start, reach_of_play (Option.some_get reread_plays).symm, ?_⟩
  intro coherent
  have same := coherent 0 0xC0100 own
  rw [found, frame] at same
  simp at same

end KOS.Tlb
