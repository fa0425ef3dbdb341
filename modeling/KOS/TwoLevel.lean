import Mathlib

/-! Two-level page tables of a 32-bit machine with 4 KiB pages: the walk over the words of physical
memory, and a directory that is the last of its own page tables. -/

namespace KOS.TwoLevel

/-- The aligned words of physical memory, by address. -/
abbrev Phys := Nat → Nat

def dirIndex (v : Nat) : Nat := v / 2 ^ 22 % 2 ^ 10
def tableIndex (v : Nat) : Nat := v / 2 ^ 12 % 2 ^ 10
def offset (v : Nat) : Nat := v % 2 ^ 12

/-- The frame an entry points to. -/
def frame (w : Nat) : Nat := w / 2 ^ 12 % 2 ^ 20 * 2 ^ 12

def Present (w : Nat) : Prop := w % 2 = 1

instance : DecidablePred Present := fun w => inferInstanceAs (Decidable (w % 2 = 1))

/-- Where the directory entry of `v` lies. -/
def pdeAt (dir v : Nat) : Nat := dir + 4 * dirIndex v

/-- Where the table entry of `v` lies, when its directory entry is present. -/
def pteAt (m : Phys) (dir v : Nat) : Option Nat :=
  if Present (m (pdeAt dir v)) then some (frame (m (pdeAt dir v)) + 4 * tableIndex v) else none

/-- The physical address of `v`; `none` is a page fault. -/
def walk (m : Phys) (dir v : Nat) : Option Nat :=
  (pteAt m dir v).bind fun a => if Present (m a) then some (frame (m a) + offset v) else none

def load (m : Phys) (dir v : Nat) : Option Nat := (walk m dir v).map m

def store (m : Phys) (dir v w : Nat) : Option Phys := (walk m dir v).map fun a => Function.update m a w

/-- Entry 1023 points to the directory, and no other present entry does. -/
structure SelfMapped (m : Phys) (dir : Nat) : Prop where
  aligned : dir % 2 ^ 12 = 0
  present : Present (m (dir + 4 * 1023))
  self : frame (m (dir + 4 * 1023)) = dir
  only : ∀ i < 1023, Present (m (dir + 4 * i)) → frame (m (dir + 4 * i)) ≠ dir

variable {m m' : Phys} {dir v u a w : Nat}

theorem frame_aligned (w : Nat) : frame w % 2 ^ 12 = 0 := Nat.mul_mod_left _ _

theorem frame_lt (w : Nat) : frame w + 2 ^ 12 ≤ 2 ^ 32 := by
  unfold frame
  omega

theorem dirIndex_lt (v : Nat) : dirIndex v < 1024 := Nat.mod_lt _ (by decide)

theorem tableIndex_lt (v : Nat) : tableIndex v < 1024 := Nat.mod_lt _ (by decide)

theorem pteAt_of_present (present : Present (m (pdeAt dir v))) :
    pteAt m dir v = some (frame (m (pdeAt dir v)) + 4 * tableIndex v) := if_pos present

theorem pteAt_of_absent (absent : ¬Present (m (pdeAt dir v))) : pteAt m dir v = none := if_neg absent

theorem walk_of_pteAt (at_ : pteAt m dir v = some a) :
    walk m dir v = if Present (m a) then some (frame (m a) + offset v) else none := by
  rw [walk, at_, Option.bind_some]

theorem walk_of_absent (absent : ¬Present (m (pdeAt dir v))) : walk m dir v = none := by
  rw [walk, pteAt_of_absent absent, Option.bind_none]

theorem pteAt_congr (same : m' (pdeAt dir v) = m (pdeAt dir v)) : pteAt m' dir v = pteAt m dir v := by
  unfold pteAt
  rw [same]

/-- A walk reads the directory entry and the table entry, and nothing else. -/
theorem walk_congr (pde : m' (pdeAt dir v) = m (pdeAt dir v)) (pte : ∀ a, pteAt m dir v = some a → m' a = m a) :
    walk m' dir v = walk m dir v := by
  unfold walk
  rw [pteAt_congr pde]
  cases at_ : pteAt m dir v with
  | none => rfl
  | some a => rw [Option.bind_some, Option.bind_some, pte a at_]

/-! Through entry 1023 the tables are pages, and through the last of these the directory is. -/

/-- The walk of an address of the window ends one level early: in the table the directory names. -/
theorem SelfMapped.walk_window (mapped : SelfMapped m dir) (window : dirIndex v = 1023) :
    walk m dir v = if Present (m (dir + 4 * tableIndex v)) then some (frame (m (dir + 4 * tableIndex v)) + offset v)
      else none := by
  have last : pdeAt dir v = dir + 4 * 1023 := by rw [pdeAt, window]
  apply walk_of_pteAt
  rw [pteAt_of_present (by rw [last]; exact mapped.present), last, mapped.self]

/-- No table entry below the window lies in the directory. -/
theorem SelfMapped.pteAt_outside (mapped : SelfMapped m dir) (low : dirIndex v < 1023) (at_ : pteAt m dir v = some a)
    (i : Nat) (inside : i < 1024) : a ≠ dir + 4 * i := by
  by_cases present : Present (m (pdeAt dir v))
  · rw [pteAt_of_present present] at at_
    obtain rfl := Option.some.inj at_
    have other := mapped.only _ low present
    have aligned := mapped.aligned
    have aligned' := frame_aligned (m (pdeAt dir v))
    have lane := tableIndex_lt v
    unfold pdeAt at *
    omega
  · rw [pteAt_of_absent present] at at_
    cases at_

/-- Whatever is written outside the directory, it keeps its shape. -/
theorem SelfMapped.congr (mapped : SelfMapped m dir) (same : ∀ i < 1024, m' (dir + 4 * i) = m (dir + 4 * i)) :
    SelfMapped m' dir := by
  constructor
  · exact mapped.aligned
  · rw [same 1023 (by decide)]
    exact mapped.present
  · rw [same 1023 (by decide)]
    exact mapped.self
  · intro i low
    rw [same i (by omega)]
    exact mapped.only i low

section Entry

/-! A new word in a table. -/

variable (outside : ∀ i < 1024, a ≠ dir + 4 * i)
include outside

theorem pde_update (v : Nat) : Function.update m a w (pdeAt dir v) = m (pdeAt dir v) :=
  Function.update_of_ne (outside _ (dirIndex_lt v)).symm w m

theorem walk_update_self (at_ : pteAt m dir v = some a) :
    walk (Function.update m a w) dir v = if Present w then some (frame w + offset v) else none := by
  rw [walk_of_pteAt ((pteAt_congr (pde_update outside v)).trans at_), Function.update_self]

theorem walk_update_other (other : pteAt m dir v ≠ some a) : walk (Function.update m a w) dir v = walk m dir v := by
  apply walk_congr (pde_update outside v)
  intro b at_
  apply Function.update_of_ne
  rintro rfl
  exact other at_

end Entry

/-! A new table. -/

/-- The words from `t` on, set to zero one after the other. -/
def zeroWords (m : Phys) (t : Nat) : Nat → Phys
  | 0 => m
  | n + 1 => zeroWords (Function.update m t 0) (t + 4) n

theorem zeroWords_outside {t : Nat} (n : Nat) (outside : ∀ k < n, a ≠ t + 4 * k) : zeroWords m t n a = m a := by
  induction n generalizing m t with
  | zero => rfl
  | succ n ih =>
    rw [zeroWords, ih]
    · exact Function.update_of_ne (outside 0 (Nat.succ_pos n)) _ _
    · intro k inside
      have apart := outside (k + 1) (by omega)
      omega

theorem zeroWords_inside {t k : Nat} (n : Nat) (inside : k < n) : zeroWords m t n (t + 4 * k) = 0 := by
  induction n generalizing m t k with
  | zero => omega
  | succ n ih =>
    rw [zeroWords]
    cases k with
    | zero =>
      rw [zeroWords_outside n (by intro k _; omega)]
      exact Function.update_self ..
    | succ k =>
      rw [show t + 4 * (k + 1) = t + 4 + 4 * k by omega]
      exact ih (by omega)

/-- A frame that is neither the directory nor a table. -/
structure Spare (m : Phys) (dir t : Nat) : Prop where
  aligned : t % 2 ^ 12 = 0
  apart : t ≠ dir
  unused : ∀ i < 1024, Present (m (dir + 4 * i)) → frame (m (dir + 4 * i)) ≠ t

/-- No table entry lies in it. -/
theorem Spare.not_entry {t : Nat} (spare : Spare m dir t) (at_ : pteAt m dir v = some a) (k : Nat) (inside : k < 1024) :
    a ≠ t + 4 * k := by
  by_cases used : Present (m (pdeAt dir v))
  · rw [pteAt_of_present used] at at_
    obtain rfl := Option.some.inj at_
    have apart := spare.unused _ (dirIndex_lt v) used
    have aligned := spare.aligned
    have aligned' := frame_aligned (m (pdeAt dir v))
    have lane := tableIndex_lt v
    unfold pdeAt at *
    omega
  · rw [pteAt_of_absent used] at at_
    cases at_

/-- The directory entry of `v` becomes `w`, and the table it points to is cleared. -/
def install (m : Phys) (dir v w : Nat) : Phys := zeroWords (Function.update m (pdeAt dir v) w) (frame w) 1024

theorem setPde_dir {i : Nat} :
    Function.update m (pdeAt dir v) w (dir + 4 * i) = if i = dirIndex v then w else m (dir + 4 * i) := by
  by_cases here : i = dirIndex v
  · rw [if_pos here, here]
    exact Function.update_self ..
  · rw [if_neg here]
    apply Function.update_of_ne
    unfold pdeAt
    omega

/-- A new table below the window leaves the directory its own last table. -/
theorem SelfMapped.setPde (mapped : SelfMapped m dir) (low : dirIndex v < 1023) (apart : frame w ≠ dir) :
    SelfMapped (Function.update m (pdeAt dir v) w) dir := by
  constructor
  · exact mapped.aligned
  · rw [setPde_dir, if_neg (by omega)]
    exact mapped.present
  · rw [setPde_dir, if_neg (by omega)]
    exact mapped.self
  · intro i below
    rw [setPde_dir]
    by_cases here : i = dirIndex v
    · rw [if_pos here]
      exact fun _ => apart
    · rw [if_neg here]
      exact mapped.only i below

section Install

variable (mapped : SelfMapped m dir) (low : dirIndex v < 1023) (present : Present w) (spare : Spare m dir (frame w))

include mapped spare in
theorem install_dir {i : Nat} (inside : i < 1024) :
    install m dir v w (dir + 4 * i) = if i = dirIndex v then w else m (dir + 4 * i) := by
  have aligned := mapped.aligned
  have aligned' := spare.aligned
  have apart := spare.apart
  unfold install
  rw [zeroWords_outside 1024 (by intro k _; omega)]
  exact setPde_dir

include mapped low spare in
theorem install_selfMapped : SelfMapped (install m dir v w) dir := by
  apply (mapped.setPde low spare.apart).congr
  intro i inside
  rw [install_dir mapped spare inside, setPde_dir]

include mapped present spare in
theorem install_pteAt (u : Nat) (same : dirIndex u = dirIndex v) :
    pteAt (install m dir v w) dir u = some (frame w + 4 * tableIndex u) := by
  have pde : install m dir v w (pdeAt dir u) = w := by
    unfold pdeAt
    rw [install_dir mapped spare (dirIndex_lt u), if_pos same]
  rw [pteAt_of_present (by rw [pde]; exact present), pde]

theorem install_zero {k : Nat} (inside : k < 1024) : install m dir v w (frame w + 4 * k) = 0 :=
  zeroWords_inside 1024 inside

include mapped spare in
/-- The entries of the other tables stay. -/
theorem install_pte {u : Nat} (below : dirIndex u < 1023) (at_ : pteAt m dir u = some a) : install m dir v w a = m a := by
  have outside := mapped.pteAt_outside below at_
  unfold install
  rw [zeroWords_outside 1024 (spare.not_entry at_)]
  exact Function.update_of_ne (outside _ (dirIndex_lt v)) _ _

include mapped present spare in
/-- A table of zeros where there was none: no translation changes. -/
theorem walk_install (absent : ¬Present (m (pdeAt dir v))) {u : Nat} (below : dirIndex u < 1023) :
    walk (install m dir v w) dir u = walk m dir u := by
  by_cases same : dirIndex u = dirIndex v
  · have before : pdeAt dir u = pdeAt dir v := by rw [pdeAt, same, pdeAt]
    rw [walk_of_pteAt (install_pteAt mapped present spare u same), install_zero (tableIndex_lt u), if_neg (by decide),
      walk_of_absent (by rw [before]; exact absent)]
  · apply walk_congr
    · unfold pdeAt
      rw [install_dir mapped spare (dirIndex_lt u), if_neg same]
    · intro a at_
      exact install_pte mapped spare below at_

end Install

end KOS.TwoLevel
