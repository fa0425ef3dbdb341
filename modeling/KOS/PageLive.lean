import KOS.Tlb

/-! Which frames the present entries of the heap hold while `page_malloc` and `page_free` are in
progress: `page_release` gives a frame back before it clears the entry that holds it. -/

namespace KOS.PageLive
open KOS.PageBitmap KOS.Paging KOS.PageWiring KOS.PageAlloc KOS.Machine
open KOS.Tlb (Bare bare)

variable {τ : Type*} [DecidableEq τ]

/-- The heap pages with a present entry, owned or not. -/
def live (pages : Pages) : Set Nat := {page | InHeap page ∧ present (pages.pte page) = true}

/-- No two present entries of the heap hold one frame, and none a frame that is marked free. -/
def OnceMapped (pages : Pages) : Prop :=
  (∀ page ∈ live pages, ∀ other ∈ live pages,
    pages.pte page &&& 0xfffff000 = pages.pte other &&& 0xfffff000 → page = other) ∧
    ∀ page ∈ live pages, ∀ f, f < 8 * pages.pp.paddrBitmap.len →
      pages.pte page &&& 0xfffff000 = pages.pp.paddrStart + f * PG_SIZE → bitmapCheck pages.pp.paddrBitmap f = true

def Pc.Pfrees : Pc → Bool
  | .free _ _ _ _ => true
  | _ => false

/-- No frame is given back. -/
def Quiet (k : Kernel τ) : Event τ → Prop
  | .exec t => Permitted k (.exec t) ∧ Pc.Pfrees (k.pc t) = false
  | e => Permitted k e

instance (k : Kernel τ) : DecidablePred (Quiet k)
  | .malloc t vaddr n => inferInstanceAs (Decidable (Permitted k (.malloc t vaddr n)))
  | .free t vaddr n => inferInstanceAs (Decidable (Permitted k (.free t vaddr n)))
  | .exec t => inferInstanceAs (Decidable (Permitted k (.exec t) ∧ Pc.Pfrees (k.pc t) = false))

/-- Where a call stands as long as no frame is given back. -/
def Settled : Pc → Prop
  | .resolve _ _ i => i = 0
  | .remove _ _ _ => False
  | .unreserve _ n => n = 0
  | _ => True

structure Calm (k : Kernel τ) : Prop where
  wiring : Wired k.pages (live k.pages) (live k.pages) (loose k)
  settled : ∀ t, Settled (k.pc t)

variable {k k' : Kernel τ}

omit [DecidableEq τ] in
theorem Calm.onceMapped (calm : Calm k) : OnceMapped k.pages := by
  have frame : ∀ page ∈ live k.pages, ∃ paddr, Taken k.pages.pp paddr ∧ k.pages.pte page = entry paddr ∧
      k.pages.pte page &&& 0xfffff000 = paddr := by
    intro page member
    obtain ⟨paddr, taken, -, pte⟩ := calm.wiring.entries page member
    obtain ⟨aligned, small⟩ := taken.aligned calm.wiring.sized
    exact ⟨paddr, taken, pte, by rw [pte, entry_frame aligned small]⟩
  constructor
  · intro page member other member' same
    obtain ⟨paddr, -, pte, holds⟩ := frame page member
    obtain ⟨paddr', -, pte', holds'⟩ := frame other member'
    have one : paddr = paddr' := holds.symm.trans (same.trans holds')
    exact calm.wiring.distinct page member other member' (by rw [pte, pte', one])
  · intro page member f _ holds
    obtain ⟨paddr, ⟨g, -, address, used⟩, -, there⟩ := frame page member
    have same : f = g := by
      rw [there, address] at holds
      unfold PG_SIZE at holds
      omega
    rw [same]
    exact used

/-- One thread moves. -/
theorem Calm.move {t : τ} {pages : Pages} {pc : Pc} {C L : Set Nat} (calm : Calm k) (kept : k'.pages = pages)
    (moved : k'.pc = Function.update k.pc t pc) (wires : Wired pages C (live pages) L) (within : live pages ⊆ C)
    (others : ∀ u, u ≠ t → ∀ paddr, carried (k.pc u) = some paddr → paddr ∈ L)
    (mine : ∀ paddr, carried pc = some paddr → paddr ∈ L) (settled : Settled pc) : Calm k' := by
  have self : k'.pc t = pc := by rw [moved, Function.update_self]
  have other : ∀ u, u ≠ t → k'.pc u = k.pc u := by
    intro u different
    rw [moved, Function.update_of_ne different]
  constructor
  · rw [kept]
    apply wires.weaken within subset_rfl
    intro paddr tied
    obtain ⟨u, carries⟩ := tied
    by_cases same : u = t
    · rw [same, self] at carries
      exact mine paddr carries
    · rw [other u same] at carries
      exact others u same paddr carries
  · intro u
    by_cases same : u = t
    · rw [same, self]
      exact settled
    · rw [other u same]
      exact calm.settled u

/-- A step that leaves the page layer alone. -/
theorem Calm.turn {t : τ} {pc : Pc} (calm : Calm k) (kept : k'.pages = k.pages)
    (moved : k'.pc = Function.update k.pc t pc) (carry : carried pc = none) (settled : Settled pc) : Calm k' := by
  apply calm.move kept moved calm.wiring subset_rfl _ _ settled
  · exact fun u _ paddr carries => ⟨u, carries⟩
  · intro paddr carries
    rw [carry] at carries
    cases carries

theorem Calm.reserve {t : τ} {vaddr n start : Nat} {vp : VPool} (calm : Calm k)
    (request : Request k.pages.vp vaddr n) (ran : vaddrAcquire k.pages.vp vaddr n = (start, vp)) :
    Calm (goto (setPages k { k.pages with vp := vp }) t (if start = 0 then .client else .frame start n 0)) := by
  have others : ∀ u, u ≠ t → ∀ paddr, carried (k.pc u) = some paddr → paddr ∈ loose k :=
    fun u _ paddr carries => ⟨u, carries⟩
  rcases calm.wiring.vaddrAcquire request ran with ⟨null, wires⟩ | ⟨some, -, -, -, wires⟩
  · rw [if_pos null]
    refine calm.move rfl rfl wires subset_rfl others ?_ trivial
    intro paddr carries
    cases carries
  · rw [if_neg some]
    refine calm.move rfl rfl wires Set.subset_union_left others ?_ trivial
    intro paddr carries
    cases carries

theorem Calm.frame {t : τ} {start n i paddr : Nat} {pp : PPool} (calm : Calm k)
    (ran : palloc k.pages.pp = (paddr, pp)) :
    Calm (goto (setPages k { k.pages with pp := pp }) t (if paddr = 0 then .client else .add start n i paddr)) := by
  by_cases null : paddr = 0
  · rw [if_pos null]
    rcases palloc_spec calm.wiring.sized ran with ⟨-, same⟩ | ⟨some, -⟩
    · rw [same]
      exact calm.turn rfl rfl rfl trivial
    · exact absurd null some
  · rw [if_neg null]
    have wires := (calm.wiring.palloc ran null).2
    refine calm.move rfl rfl wires subset_rfl ?_ ?_ trivial
    · exact fun u _ other carries => .inr ⟨u, carries⟩
    · intro other carries
      exact .inl (Option.some.inj carries).symm

omit [DecidableEq τ] in
theorem Calm.claims (inv : Inv k) (calm : Calm k) :
    Wired k.pages (claimed k ∪ live k.pages) (live k.pages) (loose k) := by
  obtain ⟨sized, heap, reserved, entries, taken, distinct⟩ := calm.wiring
  refine ⟨sized, ?_, ?_, entries, taken, distinct⟩
  · rintro page (claim | present)
    · exact inv.wiring.heap page claim
    · exact heap page present
  · rintro page (claim | present)
    · exact inv.wiring.reserved page claim
    · exact reserved page present

theorem Calm.add {t : τ} {start n i paddr : Nat} (inv : Inv k) (bares : Bare k) (calm : Calm k)
    (pc : k.pc t = .add start n i paddr) :
    Calm (goto (setPages k (pageTableAdd k.pages (vaddrIdx start i) paddr)) t (.frame start n (i + 1))) := by
  have shaped := inv.shaped t
  rw [pc] at shaped
  obtain ⟨below, aligned, -⟩ := shaped
  have member : start / PG_SIZE + i ∈ held (k.pc t) := by
    rw [pc]
    exact mem_span.mpr ⟨by omega, by omega⟩
  have heap := (inv.held_page member).1
  have page := (vaddrIdx_page aligned heap).1
  have coming : start / PG_SIZE + i ∈ bare (k.pc t) := by
    rw [pc, bare, List.mem_range'_1]
    omega
  have unmapped : start / PG_SIZE + i ∉ live k.pages := by
    intro there
    exact Bool.false_ne_true ((bares.call t _ coming).symm.trans there.2)
  have carries : carried (k.pc t) = some paddr := by rw [pc, carried]
  have framed := (calm.wiring.taken paddr ⟨t, carries⟩).aligned calm.wiring.sized
  rw [← page] at heap unmapped
  have wires := (calm.claims inv).pageTableAdd heap unmapped ⟨t, carries⟩
  have entries : pageTableAdd k.pages (vaddrIdx start i) paddr =
      { k.pages with pte := Function.update k.pages.pte (vaddrIdx start i / PG_SIZE) (entry paddr) } :=
    pageTableAdd_eq calm.wiring.sized heap
  have grown : live (pageTableAdd k.pages (vaddrIdx start i) paddr) =
      insert (vaddrIdx start i / PG_SIZE) (live k.pages) := by
    ext q
    rw [entries, Set.mem_insert_iff]
    by_cases same : q = vaddrIdx start i / PG_SIZE
    · subst same
      simp [live, heap, entry_present framed.1]
    · simp [live, same]
  rw [← grown] at wires
  have kept : (goto (setPages k (pageTableAdd k.pages (vaddrIdx start i) paddr)) t (.frame start n (i + 1))).pages =
      pageTableAdd k.pages (vaddrIdx start i) paddr := rfl
  refine calm.move kept rfl wires ?_ ?_ ?_ trivial
  · rw [grown]
    intro q new
    rcases Set.mem_insert_iff.mp new with rfl | old
    · refine .inl ⟨t, List.mem_append_right _ ?_⟩
      rw [page]
      exact member
    · exact .inr old
  · intro u different other there
    refine ⟨⟨u, there⟩, ?_⟩
    rintro rfl
    exact different (inv.carry u t _ there carries)
  · intro other none
    cases none

theorem Calm.exec {t : τ} (inv : Inv k) (bares : Bare k) (calm : Calm k) (quiet : Quiet k (.exec t))
    (ran : exec k t = some k') : Calm k' := by
  obtain ⟨requests, keeps⟩ := quiet
  have settled := calm.settled t
  cases exec_cases ran with
  | reserve vaddr n start vp pc got =>
    have request : (k.pc t).Requests k.pages.vp := requests
    rw [pc] at request
    exact calm.reserve request got
  | grant start n pc => exact calm.turn rfl rfl rfl trivial
  | frame start n i paddr pp pc more got => exact calm.frame got
  | add start n i paddr pc => exact calm.add inv bares pc
  | unmapped start n pc =>
    rw [pc] at settled
    exact calm.turn rfl rfl rfl settled
  | resolve start n i pc more => exact calm.turn rfl rfl rfl trivial
  | free start n i paddr pp pc freed => simp [pc, Pc.Pfrees] at keeps
  | remove start n i pc =>
    rw [pc] at settled
    exact settled.elim
  | unreserve start n vp pc released =>
    rw [pc] at settled
    obtain rfl : n = 0 := settled
    cases released
    exact calm.turn rfl rfl rfl trivial

theorem Calm.step {e : Event τ} (inv : Inv k) (bares : Bare k) (calm : Calm k) (quiet : Quiet k e)
    (moved : step k e = some k') : Calm k' := by
  cases e with
  | exec t => exact calm.exec inv bares quiet moved
  | malloc t vaddr n =>
    simp only [PageAlloc.step] at moved
    split_ifs at moved
    cases moved
    exact calm.turn rfl rfl rfl trivial
  | free t vaddr n =>
    simp only [PageAlloc.step] at moved
    split_ifs at moved
    cases moved
    exact calm.turn rfl rfl rfl rfl

/-! Runs. -/

/-- Besides, nothing is mapped in the heap. -/
structure Blank (k : Kernel τ) : Prop where
  start : Start k
  absent : ∀ page, InHeap page → present (k.pages.pte page) = false

omit [DecidableEq τ] in
theorem Blank.calm (blank : Blank k) : Calm k := by
  have none : ∀ page, page ∉ live k.pages := by
    intro page member
    exact Bool.false_ne_true ((blank.absent page member.1).symm.trans member.2)
  refine ⟨⟨blank.start.sized, ?_, ?_, ?_, ?_, ?_⟩, ?_⟩
  · exact fun page member => absurd member (none page)
  · exact fun page member => absurd member (none page)
  · exact fun page member => absurd member (none page)
  · intro paddr tied
    obtain ⟨t, carries⟩ := tied
    rw [blank.start.idle] at carries
    cases carries
  · exact fun page member => absurd member (none page)
  · intro t
    rw [blank.start.idle]
    trivial

omit [DecidableEq τ] in
theorem quiet_permitted (k : Kernel τ) (e : Event τ) (quiet : Quiet k e) : Permitted k e := by
  cases e with
  | exec t => exact quiet.1
  | malloc t vaddr n => exact quiet
  | free t vaddr n => exact quiet

omit [DecidableEq τ] in
theorem Blank.bares (blank : Blank k) : Bare k := by
  constructor
  · exact fun page heap _ => blank.absent page heap
  · intro t page member
    rw [blank.start.idle] at member
    cases member

theorem reach_calm (blank : Blank k) (run : Reach step Quiet k k') : Calm k' := by
  have kept : ∀ (before : Kernel τ) e after, Inv before ∧ Bare before ∧ Calm before → Quiet before e →
      step before e = some after → Inv after ∧ Bare after ∧ Calm after := by
    intro before e after all quiet moved
    obtain ⟨inv, bares, calm⟩ := all
    have permitted := quiet_permitted before e quiet
    exact ⟨inv.step permitted moved, bares.step inv permitted moved, calm.step inv bares quiet moved⟩
  exact (Reach.invariant kept ⟨blank.start.inv, blank.bares, blank.calm⟩ run).2.2

/-- A frame that is given back is still mapped. -/
theorem pfree_mapped {t : τ} {start n i paddr : Nat} (inv : Inv k) (pc : k.pc t = .free start n i paddr)
    (moved : step k (.exec t) = some k') : ¬OnceMapped k'.pages := by
  simp only [PageAlloc.step, PageAlloc.exec, pc] at moved
  obtain ⟨pp, freed, rfl⟩ := Option.map_eq_some_iff.mp moved
  have shaped := inv.shaped t
  rw [pc] at shaped
  obtain ⟨below, -, -, aligned, word⟩ := shaped
  have member : start / PG_SIZE + i ∈ held (k.pc t) := by
    rw [pc]
    exact mem_span.mpr ⟨by omega, by omega⟩
  have maps : start / PG_SIZE + i ∈ mapped k := by
    refine ⟨t, .inr ?_⟩
    rw [pc, backed, List.mem_range'_1]
    omega
  obtain ⟨paddr', taken, -, pte⟩ := inv.wiring.entries _ maps
  obtain ⟨aligned', small⟩ := taken.aligned inv.wiring.sized
  obtain rfl : paddr = paddr' := entry_injective aligned aligned' (word.symm.trans pte)
  obtain ⟨f, inside, address, -⟩ := taken
  obtain ⟨btmp, released, rfl⟩ := Option.map_eq_some_iff.mp freed
  obtain ⟨len, bits⟩ := bitmapRelease_some released
  have idx : (paddr + (2 ^ 32 - k.pages.pp.paddrStart)) % 2 ^ 32 / PG_SIZE = f := by
    rw [address]
    exact inv.wiring.sized.index inside
  rw [idx] at bits
  rintro ⟨-, marked⟩
  have used : bitmapCheck btmp f = true := by
    apply marked (start / PG_SIZE + i) _ f (by rw [← len] at inside; exact inside)
    · show k.pages.pte (start / PG_SIZE + i) &&& 0xfffff000 = k.pages.pp.paddrStart + f * PG_SIZE
      rw [word, entry_frame aligned small, address]
    · refine ⟨(inv.held_page member).1, ?_⟩
      show present (k.pages.pte (start / PG_SIZE + i)) = true
      rw [word, entry_present aligned]
  rw [bits, decide_eq_true ⟨le_rfl, Nat.lt_succ_self f⟩] at used
  cases used

/-- As long as no frame is given back, each is mapped once; and from every reachable state, the
step that gives one back ends this. -/
theorem reach_onceMapped (blank : Blank k) :
    (∀ k', Reach step Quiet k k' → OnceMapped k'.pages) ∧
      ∀ k', Reach step Permitted k k' → ∀ t k'', Pc.Pfrees (k'.pc t) = true → step k' (.exec t) = some k'' →
        ¬OnceMapped k''.pages := by
  constructor
  · intro k' run
    exact (reach_calm blank run).onceMapped
  · intro k' run t k'' gives moved
    cases pc : k'.pc t <;> rw [pc] at gives <;> cases gives
    exact pfree_mapped (reach_inv blank.start run) pc moved

/-! A pool of eight frames. -/

theorem small_blank : Blank small := ⟨small_start, fun _ _ => removed_absent 0⟩

/-- Thread 0 gets a page while thread 1 has reserved two, and executes `page_free` up to its `pfree`. -/
def frees : List (Event Nat) :=
  [.malloc 0 0 1, .exec 0, .malloc 1 0 2, .exec 1, .exec 0, .exec 0, .exec 1, .exec 0, .free 0 0xC0100000 1, .exec 0]

theorem frees_plays : (play step Quiet small frees).isSome := by
  decide +kernel

def freeing : Kernel Nat := (play step Quiet small frees).get frees_plays

theorem freeing_pfrees : Pc.Pfrees (freeing.pc 0) = true ∧ (step freeing (.exec 0)).isSome = true := by
  decide +kernel

def freed : Kernel Nat := (step freeing (.exec 0)).get freeing_pfrees.2

theorem freeing_onceMapped : OnceMapped freeing.pages ∧ ¬OnceMapped freed.pages :=
  have run := reach_of_play (Option.some_get frees_plays).symm
  ⟨(reach_onceMapped small_blank).1 freeing run, (reach_onceMapped small_blank).2 freeing (run.mono quiet_permitted) 0
    freed freeing_pfrees.1 (Option.some_get freeing_pfrees.2).symm⟩

/-- Thread 1 is given the frame and maps it, before thread 0 clears its entry. -/
def races : List (Event Nat) :=
  [.malloc 0 0 1, .exec 0, .exec 0, .exec 0, .exec 0, .free 0 0xC0100000 1, .exec 0, .exec 0, .malloc 1 0 1, .exec 1,
    .exec 1, .exec 1]

theorem races_plays : (play step Permitted small races).isSome := by
  decide +kernel

def raced : Kernel Nat := (play step Permitted small races).get races_plays

theorem raced_entries : InHeap 0xC0100 ∧ InHeap 0xC0101 ∧ present (raced.pages.pte 0xC0100) = true ∧
    present (raced.pages.pte 0xC0101) = true ∧ raced.pages.pte 0xC0100 &&& 0xfffff000 = 0x200000 ∧
      raced.pages.pte 0xC0101 &&& 0xfffff000 = 0x200000 := by
  decide +kernel

theorem races_mappedTwice : Blank small ∧ Reach step Permitted small raced ∧ ¬OnceMapped raced.pages := by
  obtain ⟨heap, heap', present, present', frame, frame'⟩ := raced_entries
  refine ⟨small_blank, reach_of_play (Option.some_get races_plays).symm, ?_⟩
  intro once
  have same := once.1 0xC0100 ⟨heap, present⟩ 0xC0101 ⟨heap', present'⟩ (frame.trans frame'.symm)
  cases same

end KOS.PageLive
