import KOS.PageWiring
import KOS.Machine

/-! `page_malloc` and `page_free` under concurrency: any number of threads, and one step for
each critical section. -/

namespace KOS.PageAlloc
open KOS.PageBitmap KOS.Paging KOS.PageWiring KOS.Machine

variable {τ : Type*} [DecidableEq τ]

/-- What a thread executes next: nothing, `page_acquire` or `page_release`, with their `i`. -/
inductive Pc where
  | client
  | reserve (vaddr pgCnt : Nat)
  | frame (start pgCnt i : Nat)
  | add (start pgCnt i paddr : Nat)
  | resolve (start pgCnt i : Nat)
  | free (start pgCnt i paddr : Nat)
  | remove (start pgCnt i : Nat)
  | unreserve (start pgCnt : Nat)
  deriving DecidableEq

structure Kernel (τ : Type*) where
  pages : Pages
  pc : τ → Pc
  /-- The virtual pages that `page_malloc` has returned to a thread. -/
  owned : τ → List Nat

def goto (k : Kernel τ) (t : τ) (pc : Pc) : Kernel τ := { k with pc := Function.update k.pc t pc }

def setPages (k : Kernel τ) (pages : Pages) : Kernel τ := { k with pages := pages }

def setOwned (k : Kernel τ) (t : τ) (owned : List Nat) : Kernel τ :=
  { k with owned := Function.update k.owned t owned }

/-- `vaddr_idx` in round `i` of a loop over the pages. -/
def vaddrIdx (start i : Nat) : Nat := (start + i * PG_SIZE) % 2 ^ 32

/-- The next critical section of `t`. -/
def exec (k : Kernel τ) (t : τ) : Option (Kernel τ) :=
  match k.pc t with
  | .client => none
  | .reserve vaddr pgCnt =>
      let (start, vp) := vaddrAcquire k.pages.vp vaddr pgCnt
      let k := setPages k { k.pages with vp := vp }
      some (goto k t (if start = 0 then .client else .frame start pgCnt 0))
  | .frame start pgCnt i =>
      if i = pgCnt then some (goto (setOwned k t (k.owned t ++ span start pgCnt)) t .client)
      else
        let (paddr, pp) := palloc k.pages.pp
        let k := setPages k { k.pages with pp := pp }
        some (goto k t (if paddr = 0 then .client else .add start pgCnt i paddr))
  | .add start pgCnt i paddr =>
      some (goto (setPages k (pageTableAdd k.pages (vaddrIdx start i) paddr)) t (.frame start pgCnt (i + 1)))
  | .resolve start pgCnt i =>
      if i = pgCnt then some (goto k t (.unreserve start pgCnt))
      else some (goto k t (.free start pgCnt i (addrV2p k.pages (vaddrIdx start i))))
  | .free start pgCnt i paddr =>
      (pfree k.pages.pp paddr).map fun pp =>
        goto (setPages k { k.pages with pp := pp }) t (.remove start pgCnt i)
  | .remove start pgCnt i =>
      some (goto (setPages k (pageTableRemove k.pages (vaddrIdx start i))) t (.resolve start pgCnt (i + 1)))
  | .unreserve start pgCnt =>
      (vaddrRelease k.pages.vp start pgCnt).map fun vp =>
        goto (setPages k { k.pages with vp := vp }) t .client

/-- The critical sections of `t`, one for each branch of `exec`. -/
inductive Exec (k : Kernel τ) (t : τ) : Kernel τ → Prop where
  | reserve (vaddr n start) (vp) (pc : k.pc t = .reserve vaddr n) (got : vaddrAcquire k.pages.vp vaddr n = (start, vp)) :
      Exec k t (goto (setPages k { k.pages with vp := vp }) t (if start = 0 then .client else .frame start n 0))
  | grant (start n) (pc : k.pc t = .frame start n n) :
      Exec k t (goto (setOwned k t (k.owned t ++ span start n)) t .client)
  | frame (start n i paddr) (pp) (pc : k.pc t = .frame start n i) (more : i ≠ n)
      (got : palloc k.pages.pp = (paddr, pp)) :
      Exec k t (goto (setPages k { k.pages with pp := pp }) t (if paddr = 0 then .client else .add start n i paddr))
  | add (start n i paddr) (pc : k.pc t = .add start n i paddr) :
      Exec k t (goto (setPages k (pageTableAdd k.pages (vaddrIdx start i) paddr)) t (.frame start n (i + 1)))
  | unmapped (start n) (pc : k.pc t = .resolve start n n) : Exec k t (goto k t (.unreserve start n))
  | resolve (start n i) (pc : k.pc t = .resolve start n i) (more : i ≠ n) :
      Exec k t (goto k t (.free start n i (addrV2p k.pages (vaddrIdx start i))))
  | free (start n i paddr) (pp) (pc : k.pc t = .free start n i paddr) (freed : pfree k.pages.pp paddr = some pp) :
      Exec k t (goto (setPages k { k.pages with pp := pp }) t (.remove start n i))
  | remove (start n i) (pc : k.pc t = .remove start n i) :
      Exec k t (goto (setPages k (pageTableRemove k.pages (vaddrIdx start i))) t (.resolve start n (i + 1)))
  | unreserve (start n) (vp) (pc : k.pc t = .unreserve start n)
      (released : vaddrRelease k.pages.vp start n = some vp) :
      Exec k t (goto (setPages k { k.pages with vp := vp }) t .client)

theorem exec_cases {k k' : Kernel τ} {t : τ} (ran : exec k t = some k') : Exec k t k' := by
  unfold exec at ran
  cases pc : k.pc t with
  | client =>
    rw [pc] at ran
    cases ran
  | reserve vaddr n =>
    simp only [pc] at ran
    cases ran
    exact .reserve vaddr n _ _ pc (Prod.mk.eta ..)
  | frame start n i =>
    simp only [pc] at ran
    by_cases last : i = n
    · rw [if_pos last] at ran
      cases ran
      rw [last] at pc
      exact .grant start n pc
    · rw [if_neg last] at ran
      cases ran
      exact .frame start n i _ _ pc last (Prod.mk.eta ..)
  | add start n i paddr =>
    simp only [pc] at ran
    cases ran
    exact .add start n i paddr pc
  | resolve start n i =>
    simp only [pc] at ran
    by_cases last : i = n
    · rw [if_pos last] at ran
      cases ran
      rw [last] at pc
      exact .unmapped start n pc
    · rw [if_neg last] at ran
      cases ran
      exact .resolve start n i pc last
  | free start n i paddr =>
    simp only [pc] at ran
    obtain ⟨pp, freed, rfl⟩ := Option.map_eq_some_iff.mp ran
    exact .free start n i paddr pp pc freed
  | remove start n i =>
    simp only [pc] at ran
    cases ran
    exact .remove start n i pc
  | unreserve start n =>
    simp only [pc] at ran
    obtain ⟨vp, released, rfl⟩ := Option.map_eq_some_iff.mp ran
    exact .unreserve start n vp pc released

inductive Event (τ : Type*) where
  | malloc (t : τ) (vaddr pgCnt : Nat)
  | free (t : τ) (vaddr pgCnt : Nat)
  /-- The thread executes its next critical section. -/
  | exec (t : τ)
  deriving DecidableEq

def step (k : Kernel τ) : Event τ → Option (Kernel τ)
  | .malloc t vaddr pgCnt => if k.pc t = .client then some (goto k t (.reserve vaddr pgCnt)) else none
  | .free t vaddr pgCnt =>
      if k.pc t = .client then
        some (goto (setOwned k t ((k.owned t).filter (· ∉ span vaddr pgCnt))) t (.resolve vaddr pgCnt 0))
      else none
  | .exec t => exec k t

/-- Every page requested or picked lies in the heap. -/
def Pc.Requests (vp : VPool) : Pc → Prop
  | .reserve vaddr pgCnt => Request vp vaddr pgCnt
  | _ => True

instance (vp : VPool) : DecidablePred (Pc.Requests vp)
  | .reserve vaddr pgCnt => inferInstanceAs (Decidable (Request vp vaddr pgCnt))
  | .client | .frame _ _ _ | .add _ _ _ _ | .resolve _ _ _ | .free _ _ _ _ | .remove _ _ _ | .unreserve _ _ =>
      isTrue trivial

/-- Threads free what they own, and stay in the heap. -/
def Permitted (k : Kernel τ) : Event τ → Prop
  | .malloc _ _ _ => True
  | .free t vaddr pgCnt => vaddr % PG_SIZE = 0 ∧ vaddr < 2 ^ 32 ∧ ∀ page ∈ span vaddr pgCnt, page ∈ k.owned t
  | .exec t => (k.pc t).Requests k.pages.vp

instance (k : Kernel τ) : DecidablePred (Permitted k)
  | .malloc _ _ _ => isTrue trivial
  | .free t vaddr pgCnt =>
      inferInstanceAs (Decidable (vaddr % PG_SIZE = 0 ∧ vaddr < 2 ^ 32 ∧ ∀ page ∈ span vaddr pgCnt, page ∈ k.owned t))
  | .exec t => inferInstanceAs (Decidable ((k.pc t).Requests k.pages.vp))

/-! The pages and the frame of a call in progress. -/

/-- The virtual pages that a call has reserved. -/
def held : Pc → List Nat
  | .client | .reserve _ _ => []
  | .frame start n _ | .add start n _ _ | .resolve start n _ | .free start n _ _ | .remove start n _
  | .unreserve start n => span start n

/-- The pages of a call that are mapped to frames of their own. -/
def backed : Pc → List Nat
  | .frame start _ i | .add start _ i _ => span start i
  | .resolve start n i | .free start n i _ => List.range' (start / PG_SIZE + i) (n - i)
  | .remove start n i => List.range' (start / PG_SIZE + i + 1) (n - (i + 1))
  | _ => []

/-- The frame between `palloc` and `page_table_add`. -/
def carried : Pc → Option Nat
  | .add _ _ _ paddr => some paddr
  | _ => none

def claims (k : Kernel τ) (t : τ) : List Nat := k.owned t ++ held (k.pc t)

def claimed (k : Kernel τ) : Set Nat := {page | ∃ t, page ∈ claims k t}

def mapped (k : Kernel τ) : Set Nat := {page | ∃ t, page ∈ k.owned t ∨ page ∈ backed (k.pc t)}

def loose (k : Kernel τ) : Set Nat := {paddr | ∃ t, carried (k.pc t) = some paddr}

/-- The arguments of a call are in order. -/
def Shaped (k : Pages) : Pc → Prop
  | .client | .reserve _ _ => True
  | .frame start n i | .resolve start n i => i ≤ n ∧ start % PG_SIZE = 0 ∧ start < 2 ^ 32
  | .add start n i _ | .remove start n i => i < n ∧ start % PG_SIZE = 0 ∧ start < 2 ^ 32
  | .free start n i paddr => i < n ∧ start % PG_SIZE = 0 ∧ start < 2 ^ 32 ∧ paddr % PG_SIZE = 0 ∧
      k.pte (start / PG_SIZE + i) = entry paddr
  | .unreserve start _ => start % PG_SIZE = 0 ∧ start < 2 ^ 32

structure Inv (k : Kernel τ) : Prop where
  wiring : Wired k.pages (claimed k) (mapped k) (loose k)
  shaped : ∀ t, Shaped k.pages (k.pc t)
  apart : ∀ t u page, page ∈ claims k t → page ∈ claims k u → t = u
  nodup : ∀ t, (claims k t).Nodup
  carry : ∀ t u paddr, carried (k.pc t) = some paddr → carried (k.pc u) = some paddr → t = u

variable {k k' : Kernel τ}

/-- A page that a call has mapped is one that it has reserved. -/
theorem backed_held {pages : Pages} {pc : Pc} (shaped : Shaped pages pc) {page : Nat} (member : page ∈ backed pc) :
    page ∈ held pc := by
  cases pc <;> simp only [backed, held, span, List.mem_range'_1, List.not_mem_nil] at member ⊢ <;>
    simp only [Shaped] at shaped <;> omega

omit [DecidableEq τ] in
theorem Inv.claims_of_mapped {t : τ} {page : Nat} (inv : Inv k)
    (member : page ∈ k.owned t ∨ page ∈ backed (k.pc t)) : page ∈ claims k t := by
  rcases member with own | wire
  · exact List.mem_append_left _ own
  · exact List.mem_append_right _ (backed_held (inv.shaped t) wire)

/-- One thread moves; what the others claim, map and carry is as before. -/
theorem Inv.replace {t : τ} {pages : Pages} {owned : List Nat} {pc : Pc} {C M L : Set Nat} (inv : Inv k)
    (kept : k'.pages = pages) (own : k'.owned = Function.update k.owned t owned)
    (moved : k'.pc = Function.update k.pc t pc) (wires : Wired pages C M L)
    (othersClaim : ∀ u, u ≠ t → ∀ page ∈ claims k u, page ∈ C)
    (mineClaim : ∀ page ∈ owned ++ held pc, page ∈ C ∧ (page ∈ claims k t ∨ page ∉ claimed k))
    (othersMap : ∀ u, u ≠ t → ∀ page, page ∈ k.owned u ∨ page ∈ backed (k.pc u) → page ∈ M)
    (mineMap : ∀ page, page ∈ owned ∨ page ∈ backed pc → page ∈ M)
    (othersCarry : ∀ u, u ≠ t → ∀ paddr, carried (k.pc u) = some paddr → paddr ∈ L)
    (mineCarry : ∀ paddr, carried pc = some paddr → paddr ∈ L ∧ paddr ∉ loose k)
    (shape : Shaped pages pc) (nodup : (owned ++ held pc).Nodup)
    (pte : ∀ u, u ≠ t → ∀ page ∈ claims k u, pages.pte page = k.pages.pte page) : Inv k' := by
  have self : claims k' t = owned ++ held pc := by
    rw [claims, own, moved, Function.update_self, Function.update_self]
  have other : ∀ u, u ≠ t → claims k' u = claims k u := by
    intro u different
    rw [claims, own, moved, Function.update_of_ne different, Function.update_of_ne different, claims]
  have pcs : ∀ u, u ≠ t → k'.pc u = k.pc u := by
    intro u different
    rw [moved, Function.update_of_ne different]
  have pcSelf : k'.pc t = pc := by rw [moved, Function.update_self]
  have mine : ∀ u, u ≠ t → ∀ page ∈ owned ++ held pc, page ∉ claims k u := by
    intro u different page member there
    rcases (mineClaim page member).2 with before | free
    · exact different (inv.apart u t page there before)
    · exact free ⟨u, there⟩
  have carrier : ∀ u, u ≠ t → ∀ paddr, carried pc = some paddr → carried (k.pc u) ≠ some paddr := by
    intro u different paddr carry there
    exact (mineCarry paddr carry).2 ⟨u, there⟩
  refine ⟨?_, ?_, ?_, ?_, ?_⟩
  · rw [kept]
    apply wires.weaken
    · rintro page ⟨u, member⟩
      by_cases same : u = t
      · rw [same, self] at member
        exact (mineClaim page member).1
      · rw [other u same] at member
        exact othersClaim u same page member
    · rintro page ⟨u, member⟩
      by_cases same : u = t
      · rw [same, own, pcSelf, Function.update_self] at member
        exact mineMap page member
      · rw [own, pcs u same, Function.update_of_ne same] at member
        exact othersMap u same page member
    · rintro paddr ⟨u, member⟩
      by_cases same : u = t
      · rw [same, pcSelf] at member
        exact (mineCarry paddr member).1
      · rw [pcs u same] at member
        exact othersCarry u same paddr member
  · intro u
    by_cases same : u = t
    · rw [same, pcSelf, kept]
      exact shape
    · rw [pcs u same, kept]
      have before := inv.shaped u
      have unchanged := pte u same
      cases at_ : k.pc u <;> rw [at_] at before <;> try exact before
      case free start n i paddr =>
        obtain ⟨inside, aligned, small, page, word⟩ := before
        refine ⟨inside, aligned, small, page, ?_⟩
        rw [unchanged, word]
        apply List.mem_append_right
        rw [at_]
        exact mem_span.mpr ⟨by omega, by omega⟩
  · intro u v page first second
    by_cases mineU : u = t <;> by_cases mineV : v = t
    · rw [mineU, mineV]
    · subst mineU
      rw [self] at first
      rw [other v mineV] at second
      exact absurd second (mine v mineV page first)
    · subst mineV
      rw [self] at second
      rw [other u mineU] at first
      exact absurd first (mine u mineU page second)
    · rw [other u mineU] at first
      rw [other v mineV] at second
      exact inv.apart u v page first second
  · intro u
    by_cases same : u = t
    · rw [same, self]
      exact nodup
    · rw [other u same]
      exact inv.nodup u
  · intro u v paddr first second
    by_cases mineU : u = t <;> by_cases mineV : v = t
    · rw [mineU, mineV]
    · subst mineU
      rw [pcSelf] at first
      rw [pcs v mineV] at second
      exact absurd second (carrier v mineV paddr first)
    · subst mineV
      rw [pcSelf] at second
      rw [pcs u mineU] at first
      exact absurd first (carrier u mineU paddr second)
    · rw [pcs u mineU] at first
      rw [pcs v mineV] at second
      exact inv.carry u v paddr first second

theorem vaddrIdx_page {start i : Nat} (aligned : start % PG_SIZE = 0) (heap : InHeap (start / PG_SIZE + i)) :
    vaddrIdx start i / PG_SIZE = start / PG_SIZE + i ∧ vaddrIdx start i % PG_SIZE = 0 := by
  obtain ⟨-, below⟩ := heap
  unfold vaddrIdx
  unfold PG_SIZE at *
  omega

omit [DecidableEq τ] in
/-- A page of the call in progress, which no other thread claims. -/
theorem Inv.held_page {t : τ} {page : Nat} (inv : Inv k) (member : page ∈ held (k.pc t)) :
    InHeap page ∧ page ∉ k.owned t ∧ ∀ u, u ≠ t → page ∉ claims k u := by
  have claim : page ∈ claims k t := List.mem_append_right _ member
  refine ⟨inv.wiring.heap page ⟨t, claim⟩, ?_, ?_⟩
  · intro own
    exact List.disjoint_of_nodup_append (inv.nodup t) own member
  · intro u different there
    exact different (inv.apart u t page there claim)

theorem Inv.unmapped {t : τ} {page : Nat} (inv : Inv k) (member : page ∈ held (k.pc t))
    (bare : page ∉ backed (k.pc t)) : page ∉ mapped k := by
  obtain ⟨-, unowned, others⟩ := inv.held_page member
  rintro ⟨u, there⟩
  by_cases same : u = t
  · subst same
    rcases there with own | wire
    · exact unowned own
    · exact bare wire
  · exact others u same (inv.claims_of_mapped there)

/-- A step that leaves the page layer alone and claims nothing new. -/
theorem Inv.turn {t : τ} {owned : List Nat} {pc : Pc} (inv : Inv k) (kept : k'.pages = k.pages)
    (own : k'.owned = Function.update k.owned t owned) (moved : k'.pc = Function.update k.pc t pc)
    (claim : ∀ page ∈ owned ++ held pc, page ∈ claims k t)
    (map : ∀ page, page ∈ owned ∨ page ∈ backed pc → page ∈ mapped k) (carry : carried pc = none)
    (shape : Shaped k.pages pc) (nodup : (owned ++ held pc).Nodup) : Inv k' := by
  apply inv.replace kept own moved inv.wiring _ _ _ map _ _ shape nodup (fun _ _ _ _ => rfl)
  · exact fun u _ page member => ⟨u, member⟩
  · exact fun page member => ⟨⟨t, claim page member⟩, .inl (claim page member)⟩
  · exact fun u _ page member => ⟨u, member⟩
  · exact fun u _ paddr member => ⟨u, member⟩
  · intro paddr some
    rw [carry] at some
    cases some

/-- The call ends, or has failed: what it reserved stays reserved. -/
theorem Inv.leave {t : τ} (inv : Inv k) (kept : k'.pages = k.pages) (own : k'.owned = k.owned)
    (moved : k'.pc = Function.update k.pc t .client) : Inv k' := by
  apply inv.turn kept (own.trans (Function.update_eq_self t k.owned).symm) moved
  · intro page member
    rw [held, List.append_nil] at member
    exact List.mem_append_left _ member
  · rintro page (member | member)
    · exact ⟨t, .inl member⟩
    · cases member
  · rfl
  · trivial
  · rw [held, List.append_nil]
    exact (List.nodup_append.mp (inv.nodup t)).1

theorem Inv.reserve {t : τ} {vaddr n start : Nat} {vp : VPool} (inv : Inv k) (pc : k.pc t = .reserve vaddr n)
    (request : Request k.pages.vp vaddr n) (ran : vaddrAcquire k.pages.vp vaddr n = (start, vp)) :
    Inv (goto (setPages k { k.pages with vp := vp }) t (if start = 0 then .client else .frame start n 0)) := by
  have own : k.owned = Function.update k.owned t (k.owned t) := (Function.update_eq_self t k.owned).symm
  have claim : claims k t = k.owned t := by rw [claims, pc, held, List.append_nil]
  rcases inv.wiring.vaddrAcquire request ran with ⟨null, wires⟩ | ⟨some, aligned, small, fresh, wires⟩
  · rw [if_pos null]
    refine inv.replace rfl own rfl wires ?_ ?_ ?_ ?_ ?_ ?_ trivial ?_ (fun _ _ _ _ => rfl)
    · exact fun u _ page member => ⟨u, member⟩
    · intro page member
      rw [held, List.append_nil, ← claim] at member
      exact ⟨⟨t, member⟩, .inl member⟩
    · exact fun u _ page member => ⟨u, member⟩
    · rintro page (member | member)
      · exact ⟨t, .inl member⟩
      · cases member
    · exact fun u _ paddr member => ⟨u, member⟩
    · exact fun paddr none => nomatch none
    · rw [held, List.append_nil, ← claim]
      exact inv.nodup t
  · rw [if_neg some]
    refine inv.replace rfl own rfl wires ?_ ?_ ?_ ?_ ?_ ?_ ⟨Nat.zero_le n, aligned, small⟩ ?_ (fun _ _ _ _ => rfl)
    · exact fun u _ page member => .inl ⟨u, member⟩
    · intro page member
      rcases List.mem_append.mp member with old | new
      · rw [← claim] at old
        exact ⟨.inl ⟨t, old⟩, .inl old⟩
      · exact ⟨.inr new, .inr fun there => (fresh page new).2 (inv.wiring.reserved page there)⟩
    · exact fun u _ page member => ⟨u, member⟩
    · rintro page (member | member)
      · exact ⟨t, .inl member⟩
      · cases member
    · exact fun u _ paddr member => ⟨u, member⟩
    · exact fun paddr none => nomatch none
    · rw [List.nodup_append']
      refine ⟨claim ▸ inv.nodup t, List.nodup_range', ?_⟩
      intro page old new
      exact (fresh page new).2 (inv.wiring.reserved page ⟨t, claim.symm ▸ old⟩)

theorem Inv.frame {t : τ} {start n i paddr : Nat} {pp : PPool} (inv : Inv k) (pc : k.pc t = .frame start n i)
    (inside : i ≠ n) (ran : palloc k.pages.pp = (paddr, pp)) :
    Inv (goto (setPages k { k.pages with pp := pp }) t (if paddr = 0 then .client else .add start n i paddr)) := by
  have own : k.owned = Function.update k.owned t (k.owned t) := (Function.update_eq_self t k.owned).symm
  have shaped := inv.shaped t
  rw [pc] at shaped
  obtain ⟨below, aligned, small⟩ := shaped
  have claim : claims k t = k.owned t ++ span start n := by rw [claims, pc, held]
  by_cases null : paddr = 0
  · rcases palloc_spec inv.wiring.sized ran with ⟨-, same⟩ | ⟨some, -⟩
    · rw [if_pos null, same]
      exact inv.leave rfl rfl rfl
    · exact absurd null some
  · obtain ⟨fresh, wires⟩ := inv.wiring.palloc ran null
    rw [if_neg null]
    refine inv.replace rfl own rfl wires ?_ ?_ ?_ ?_ ?_ ?_ ⟨by omega, aligned, small⟩ ?_ (fun _ _ _ _ => rfl)
    · exact fun u _ page member => ⟨u, member⟩
    · intro page member
      rw [held, ← claim] at member
      exact ⟨⟨t, member⟩, .inl member⟩
    · exact fun u _ page member => ⟨u, member⟩
    · intro page member
      refine ⟨t, ?_⟩
      rw [pc]
      exact member
    · exact fun u _ paddr member => .inr ⟨u, member⟩
    · intro other mine
      cases mine
      exact ⟨.inl rfl, fresh⟩
    · rw [held, ← claim]
      exact inv.nodup t

theorem Inv.add {t : τ} {start n i paddr : Nat} (inv : Inv k) (pc : k.pc t = .add start n i paddr) :
    Inv (goto (setPages k (pageTableAdd k.pages (vaddrIdx start i) paddr)) t (.frame start n (i + 1))) := by
  have own : k.owned = Function.update k.owned t (k.owned t) := (Function.update_eq_self t k.owned).symm
  have shaped := inv.shaped t
  rw [pc] at shaped
  obtain ⟨below, aligned, small⟩ := shaped
  have claim : claims k t = k.owned t ++ span start n := by rw [claims, pc, held]
  have member : start / PG_SIZE + i ∈ held (k.pc t) := by
    rw [pc]
    exact mem_span.mpr ⟨by omega, by omega⟩
  obtain ⟨heap, unowned, others⟩ := inv.held_page member
  obtain ⟨page, -⟩ := vaddrIdx_page aligned heap
  have unmapped : start / PG_SIZE + i ∉ mapped k := by
    apply inv.unmapped member
    rw [pc, backed, mem_span]
    omega
  have carries : carried (k.pc t) = some paddr := by rw [pc, carried]
  have tied : paddr ∈ loose k := ⟨t, carries⟩
  have inside : InHeap (vaddrIdx start i / PG_SIZE) := by
    rw [page]
    exact heap
  have bare : vaddrIdx start i / PG_SIZE ∉ mapped k := by
    rw [page]
    exact unmapped
  have wires := inv.wiring.pageTableAdd inside bare tied
  rw [page] at wires
  refine inv.replace rfl own rfl wires ?_ ?_ ?_ ?_ ?_ ?_ ⟨by omega, aligned, small⟩ ?_ ?_
  · exact fun u _ page member => ⟨u, member⟩
  · intro page member
    rw [held, ← claim] at member
    exact ⟨⟨t, member⟩, .inl member⟩
  · exact fun u _ page member => .inr ⟨u, member⟩
  · rintro q (old | new)
    · exact .inr ⟨t, .inl old⟩
    · obtain ⟨low, high⟩ := mem_span.mp new
      by_cases last : q = start / PG_SIZE + i
      · exact .inl last
      · refine .inr ⟨t, .inr ?_⟩
        rw [pc, backed, mem_span]
        omega
  · intro u different other carry
    refine ⟨⟨u, carry⟩, ?_⟩
    rintro rfl
    exact different (inv.carry u t _ carry carries)
  · exact fun paddr none => nomatch none
  · rw [held, ← claim]
    exact inv.nodup t
  · intro u different q there
    rw [pageTableAdd_eq inv.wiring.sized (by rw [page]; exact heap), page]
    apply Function.update_of_ne
    rintro rfl
    exact others u different there

theorem Inv.free {t : τ} {start n i paddr : Nat} {pp : PPool} (inv : Inv k) (pc : k.pc t = .free start n i paddr)
    (ran : pfree k.pages.pp paddr = some pp) :
    Inv (goto (setPages k { k.pages with pp := pp }) t (.remove start n i)) := by
  have own : k.owned = Function.update k.owned t (k.owned t) := (Function.update_eq_self t k.owned).symm
  have shaped := inv.shaped t
  rw [pc] at shaped
  obtain ⟨below, aligned, small, frame, word⟩ := shaped
  have claim : claims k t = k.owned t ++ span start n := by rw [claims, pc, held]
  have member : start / PG_SIZE + i ∈ held (k.pc t) := by
    rw [pc]
    exact mem_span.mpr ⟨by omega, by omega⟩
  obtain ⟨heap, unowned, others⟩ := inv.held_page member
  have maps : start / PG_SIZE + i ∈ mapped k := by
    refine ⟨t, .inr ?_⟩
    rw [pc, backed, List.mem_range'_1]
    omega
  have wires := inv.wiring.pfree maps word frame ran
  refine inv.replace rfl own rfl wires ?_ ?_ ?_ ?_ ?_ ?_ ⟨below, aligned, small⟩ ?_ (fun _ _ _ _ => rfl)
  · exact fun u _ page member => ⟨u, member⟩
  · intro page member
    rw [held, ← claim] at member
    exact ⟨⟨t, member⟩, .inl member⟩
  · intro u different page there
    refine ⟨⟨u, there⟩, ?_⟩
    rintro rfl
    exact others u different (inv.claims_of_mapped there)
  · rintro page (old | left)
    · refine ⟨⟨t, .inl old⟩, ?_⟩
      rintro rfl
      exact unowned old
    · rw [backed, List.mem_range'_1] at left
      refine ⟨⟨t, .inr ?_⟩, ?_⟩
      · rw [pc, backed, List.mem_range'_1]
        omega
      · intro same
        rw [Set.mem_singleton_iff] at same
        omega
  · exact fun u _ paddr member => ⟨u, member⟩
  · exact fun paddr none => nomatch none
  · rw [held, ← claim]
    exact inv.nodup t

theorem Inv.remove {t : τ} {start n i : Nat} (inv : Inv k) (pc : k.pc t = .remove start n i) :
    Inv (goto (setPages k (pageTableRemove k.pages (vaddrIdx start i))) t (.resolve start n (i + 1))) := by
  have own : k.owned = Function.update k.owned t (k.owned t) := (Function.update_eq_self t k.owned).symm
  have shaped := inv.shaped t
  rw [pc] at shaped
  obtain ⟨below, aligned, small⟩ := shaped
  have claim : claims k t = k.owned t ++ span start n := by rw [claims, pc, held]
  have member : start / PG_SIZE + i ∈ held (k.pc t) := by
    rw [pc]
    exact mem_span.mpr ⟨by omega, by omega⟩
  obtain ⟨heap, unowned, others⟩ := inv.held_page member
  obtain ⟨page, -⟩ := vaddrIdx_page aligned heap
  have unmapped : start / PG_SIZE + i ∉ mapped k := by
    apply inv.unmapped member
    rw [pc, backed, List.mem_range'_1]
    omega
  have bare : vaddrIdx start i / PG_SIZE ∉ mapped k := by
    rw [page]
    exact unmapped
  have wires := inv.wiring.pageTableRemove bare
  refine inv.replace rfl own rfl wires ?_ ?_ ?_ ?_ ?_ ?_ ⟨by omega, aligned, small⟩ ?_ ?_
  · exact fun u _ page member => ⟨u, member⟩
  · intro page member
    rw [held, ← claim] at member
    exact ⟨⟨t, member⟩, .inl member⟩
  · exact fun u _ page member => ⟨u, member⟩
  · rintro q (old | left)
    · exact ⟨t, .inl old⟩
    · refine ⟨t, .inr ?_⟩
      rw [pc]
      exact left
  · exact fun u _ paddr member => ⟨u, member⟩
  · exact fun paddr none => nomatch none
  · rw [held, ← claim]
    exact inv.nodup t
  · intro u different q there
    rw [pageTableRemove, page]
    apply Function.update_of_ne
    rintro rfl
    exact others u different there

theorem Inv.unreserve {t : τ} {start n : Nat} {vp : VPool} (inv : Inv k) (pc : k.pc t = .unreserve start n)
    (ran : vaddrRelease k.pages.vp start n = some vp) :
    Inv (goto (setPages k { k.pages with vp := vp }) t .client) := by
  have own : k.owned = Function.update k.owned t (k.owned t) := (Function.update_eq_self t k.owned).symm
  have shaped := inv.shaped t
  rw [pc] at shaped
  have member : ∀ page ∈ span start n, page ∈ held (k.pc t) := by
    intro page inside
    rw [pc]
    exact inside
  have wires := inv.wiring.vaddrRelease (fun page inside => (inv.held_page (member page inside)).1) shaped.2 ran
  refine inv.replace rfl own rfl wires ?_ ?_ ?_ ?_ ?_ ?_ trivial ?_ (fun _ _ _ _ => rfl)
  · intro u different page there
    refine ⟨⟨u, there⟩, ?_⟩
    intro inside
    exact (inv.held_page (member page inside)).2.2 u different there
  · intro page old
    rw [held, List.append_nil] at old
    have claim : page ∈ claims k t := List.mem_append_left _ old
    refine ⟨⟨⟨t, claim⟩, ?_⟩, .inl claim⟩
    intro inside
    exact (inv.held_page (member page inside)).2.1 old
  · exact fun u _ page member => ⟨u, member⟩
  · rintro page (old | none)
    · exact ⟨t, .inl old⟩
    · cases none
  · exact fun u _ paddr member => ⟨u, member⟩
  · exact fun paddr none => nomatch none
  · rw [held, List.append_nil]
    exact (List.nodup_append.mp (inv.nodup t)).1

theorem Inv.resolve {t : τ} {start n i : Nat} (inv : Inv k) (pc : k.pc t = .resolve start n i) (inside : i ≠ n) :
    Inv (goto k t (.free start n i (addrV2p k.pages (vaddrIdx start i)))) := by
  have shaped := inv.shaped t
  rw [pc] at shaped
  obtain ⟨below, aligned, small⟩ := shaped
  have member : start / PG_SIZE + i ∈ held (k.pc t) := by
    rw [pc]
    exact mem_span.mpr ⟨by omega, by omega⟩
  obtain ⟨page, offset⟩ := vaddrIdx_page aligned (inv.held_page member).1
  have maps : vaddrIdx start i / PG_SIZE ∈ mapped k := by
    refine ⟨t, .inr ?_⟩
    rw [page, pc, backed, List.mem_range'_1]
    omega
  obtain ⟨taken, word⟩ := inv.wiring.addrV2p maps offset
  rw [page] at word
  refine inv.turn rfl (Function.update_eq_self t k.owned).symm rfl ?_ ?_ rfl ?_ ?_
  · intro page member
    rw [claims, pc]
    exact member
  · intro page member
    refine ⟨t, ?_⟩
    rw [pc]
    exact member
  · exact ⟨by omega, aligned, small, (taken.aligned inv.wiring.sized).1, word⟩
  · have before := inv.nodup t
    rw [claims, pc] at before
    exact before

theorem Inv.exec {t : τ} (inv : Inv k) (requests : (k.pc t).Requests k.pages.vp) (ran : exec k t = some k') :
    Inv k' := by
  have before := inv.nodup t
  cases exec_cases ran with
  | reserve vaddr n start vp pc got =>
    rw [pc] at requests
    exact inv.reserve pc requests got
  | grant start n pc =>
    rw [claims, pc] at before
    refine inv.turn rfl rfl rfl ?_ ?_ rfl trivial ?_
    · intro page member
      rw [held, List.append_nil] at member
      rw [claims, pc]
      exact member
    · rintro page (member | member)
      · refine ⟨t, ?_⟩
        rw [pc]
        exact List.mem_append.mp member
      · cases member
    · rw [held, List.append_nil]
      exact before
  | frame start n i paddr pp pc more got => exact inv.frame pc more got
  | add start n i paddr pc => exact inv.add pc
  | unmapped start n pc =>
    have own : k.owned = Function.update k.owned t (k.owned t) := (Function.update_eq_self t k.owned).symm
    have shaped := inv.shaped t
    rw [pc] at shaped
    rw [claims, pc] at before
    refine inv.turn rfl own rfl ?_ ?_ rfl shaped.2 before
    · intro page member
      rw [claims, pc]
      exact member
    · rintro page (member | member)
      · exact ⟨t, .inl member⟩
      · cases member
  | resolve start n i pc more => exact inv.resolve pc more
  | free start n i paddr pp pc freed => exact inv.free pc freed
  | remove start n i pc => exact inv.remove pc
  | unreserve start n vp pc released => exact inv.unreserve pc released

theorem Inv.step {e : Event τ} (inv : Inv k) (permitted : Permitted k e) (moved : step k e = some k') : Inv k' := by
  cases e with
  | exec t => exact inv.exec permitted moved
  | malloc t vaddr n =>
    simp only [PageAlloc.step] at moved
    split_ifs at moved with pc
    cases moved
    have before := inv.nodup t
    rw [claims, pc] at before
    refine inv.turn rfl (Function.update_eq_self t k.owned).symm rfl ?_ ?_ rfl trivial before
    · intro page member
      rw [claims, pc]
      exact member
    · rintro page (member | member)
      · exact ⟨t, .inl member⟩
      · cases member
  | free t vaddr n =>
    simp only [PageAlloc.step] at moved
    split_ifs at moved with pc
    cases moved
    obtain ⟨aligned, small, mine⟩ := permitted
    have before := (List.nodup_append.mp (inv.nodup t)).1
    refine inv.turn rfl rfl rfl ?_ ?_ rfl ⟨Nat.zero_le n, aligned, small⟩ ?_
    · intro page member
      apply List.mem_append_left
      rcases List.mem_append.mp member with kept | freed
      · exact List.mem_of_mem_filter kept
      · exact mine page freed
    · rintro page (kept | freed)
      · exact ⟨t, .inl (List.mem_of_mem_filter kept)⟩
      · exact ⟨t, .inl (mine page freed)⟩
    · rw [List.nodup_append']
      refine ⟨before.filter _, List.nodup_range', ?_⟩
      intro page kept freed
      exact of_decide_eq_true (List.mem_filter.mp kept).2 freed

/-! Runs. -/

/-- Nobody owns a page and no call is in progress. -/
structure Start (k : Kernel τ) : Prop where
  sized : Sized k.pages
  idle : ∀ t, k.pc t = .client
  none : ∀ t, k.owned t = []

omit [DecidableEq τ] in
theorem Start.inv (start : Start k) : Inv k := by
  have empty : ∀ t, claims k t = [] := by
    intro t
    rw [claims, start.none, start.idle]
    rfl
  refine ⟨⟨start.sized, ?_, ?_, ?_, ?_, ?_⟩, ?_, ?_, ?_, ?_⟩
  · rintro page ⟨t, member⟩
    simp [empty] at member
  · rintro page ⟨t, member⟩
    simp [empty] at member
  · rintro page ⟨t, member⟩
    simp [start.none, start.idle, backed] at member
  · rintro paddr ⟨t, carries⟩
    simp [start.idle, carried] at carries
  · rintro page ⟨t, member⟩
    simp [start.none, start.idle, backed] at member
  · intro t
    rw [start.idle]
    trivial
  · intro t u page member
    simp [empty] at member
  · intro t
    rw [empty]
    exact List.nodup_nil
  · intro t u paddr carries
    simp [start.idle, carried] at carries

theorem reach_inv (start : Start k) (run : Reach step Permitted k k') : Inv k' := by
  have kept : ∀ (before : Kernel τ) e after, Inv before → Permitted before e → step before e = some after →
      Inv after := fun before e after inv permitted moved => inv.step permitted moved
  exact Reach.invariant kept start.inv run

/-- The page table maps a page to the frame at `paddr`. -/
def Maps (pages : Pages) (page paddr : Nat) : Prop :=
  present (pages.pte page) = true ∧ pages.pte page &&& 0xfffff000 = paddr

/-- Owned pages differ, have their bit set, and are mapped to frames of the pool that are
marked used and that no other owned page is mapped to. -/
theorem reach_pagesExclusive (start : Start k) (run : Reach step Permitted k k') :
    (∀ t, (k'.owned t).Nodup) ∧ (∀ t u page, page ∈ k'.owned t → page ∈ k'.owned u → t = u) ∧
      ∀ t, ∀ page ∈ k'.owned t, Reserved k'.pages.vp page ∧ ∃ paddr, Taken k'.pages.pp paddr ∧
        Maps k'.pages page paddr ∧ ∀ u, ∀ other ∈ k'.owned u, Maps k'.pages other paddr → other = page := by
  have inv := reach_inv start run
  have claim : ∀ t, ∀ page ∈ k'.owned t, page ∈ claims k' t := fun t page own => List.mem_append_left _ own
  have word : ∀ t, ∀ page ∈ k'.owned t, ∃ paddr, Taken k'.pages.pp paddr ∧ k'.pages.pte page = entry paddr ∧
      Maps k'.pages page paddr := by
    intro t page own
    obtain ⟨paddr, taken, -, pte⟩ := inv.wiring.entries page ⟨t, .inl own⟩
    obtain ⟨aligned, small⟩ := taken.aligned inv.wiring.sized
    refine ⟨paddr, taken, pte, ?_⟩
    rw [Maps, pte]
    exact ⟨entry_present aligned, entry_frame aligned small⟩
  refine ⟨fun t => (List.nodup_append.mp (inv.nodup t)).1, ?_, ?_⟩
  · intro t u page own there
    exact inv.apart t u page (claim t page own) (claim u page there)
  · intro t page own
    refine ⟨inv.wiring.reserved page ⟨t, claim t page own⟩, ?_⟩
    obtain ⟨paddr, taken, pte, maps⟩ := word t page own
    refine ⟨paddr, taken, maps, ?_⟩
    intro u other there maps'
    obtain ⟨paddr', -, pte', maps''⟩ := word u other there
    have frame : paddr' = paddr := maps''.2.symm.trans maps'.2
    rw [frame, ← pte] at pte'
    exact inv.wiring.distinct other ⟨u, .inl there⟩ page ⟨t, .inl own⟩ pte'

/-! A pool of eight frames. -/

def small : Kernel Nat where
  pages := {
    vp := ⟨K_HEAP_START, fun _ => 0, 0x8000⟩
    pp := ⟨0x200000, 0x8000, fun _ => 0, 1⟩
    up := ⟨0x208000, 0x8000, fun _ => 0, 1⟩
    pde := fun _ => 7
    pte := fun _ => 0 }
  pc _ := .client
  owned _ := []

theorem small_start : Start small :=
  ⟨⟨rfl, by decide, by decide, by decide, fun _ _ => entry_present (by decide : 0 % PG_SIZE = 0)⟩, fun _ => rfl,
    fun _ => rfl⟩

/-- Thread 1 asks for a page while thread 0 maps two, and thread 0 then frees one of them. -/
def shares : List (Event Nat) :=
  [.malloc 0 0 2, .exec 0, .exec 0, .malloc 1 0 1, .exec 1, .exec 1, .exec 0, .exec 1, .exec 1, .exec 0, .exec 0,
    .exec 0, .free 0 0xC0100000 1, .exec 0, .exec 0]

theorem shares_plays : (play step Permitted small shares).isSome := by
  decide +kernel

def shared : Kernel Nat := (play step Permitted small shares).get shares_plays

theorem shares_pagesExclusive :
    (∀ t, (shared.owned t).Nodup) ∧ (∀ t u page, page ∈ shared.owned t → page ∈ shared.owned u → t = u) ∧
      ∀ t, ∀ page ∈ shared.owned t, Reserved shared.pages.vp page ∧ ∃ paddr, Taken shared.pages.pp paddr ∧
        Maps shared.pages page paddr ∧ ∀ u, ∀ other ∈ shared.owned u, Maps shared.pages other paddr → other = page :=
  reach_pagesExclusive small_start (reach_of_play (Option.some_get shares_plays).symm)

end KOS.PageAlloc
