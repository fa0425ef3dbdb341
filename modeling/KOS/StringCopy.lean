import KOS.ForwardCopy
import KOS.Stdio

/-! `memcpy` and `strcat` of `string.c`, for buffers that may overlap in any way. -/

namespace KOS.StringCopy
open KOS.ByteMemory KOS.LinkMemory KOS.Stdio KOS.ForwardCopy

/-- `while (n-- > 0) *pDst++ = *pSrc++`. -/
def memcpy : Memory → Nat → Nat → Nat → Memory
  | m, _, _, 0 => m
  | m, pDst, pSrc, n + 1 => memcpy (store m pDst (load m pSrc)) (pDst + 1) (pSrc + 1) n

/-- The memory and the pointer returned; `none` stands for a loop that the fuel did not finish. -/
def strcat (fuel : Nat) (m : Memory) (dst src : Nat) : Option (Memory × Nat) :=
  (strlenLoop fuel m dst).bind fun pDst =>
    let pDst := pDst - 1
    (strcpy fuel m pDst src).map fun m => (m, dst)

variable {m : Memory} {dst src n : Nat}

/-- The address of byte `i` of a buffer. -/
def place (a i : Nat) : Nat := (a + i) % 2 ^ 32

theorem place_succ (a i : Nat) : place (a + 1) i = place a (i + 1) := by
  unfold place
  rw [Nat.add_assoc, Nat.add_comm 1]

theorem place_distinct {a n : Nat} (fits : n ≤ 2 ^ 32) : ∀ j < n, ∀ l < j, place a j ≠ place a l := by
  intro j inside l before
  unfold place
  omega

theorem memcpy_forward (m : Memory) (dst src n : Nat) : memcpy m dst src n = forward m (place src) (place dst) n := by
  induction n generalizing m dst src with
  | zero => rfl
  | succ n ih =>
    have stored : store m dst (load m src) = Function.update m (place dst 0) (m (place src 0)) := by
      funext x
      exact (Function.update_apply m (place dst 0) (m (place src 0)) x).symm
    rw [memcpy, ih, stored, ← forward_first]
    congr 1
    · funext i
      exact place_succ src i
    · funext i
      exact place_succ dst i

theorem memcpy_other {x : Nat} (outside : ∀ i < n, x ≠ place dst i) : memcpy m dst src n x = m x := by
  rw [memcpy_forward]
  exact forward_other outside

theorem load_memcpy_other {x : Nat} (outside : ∀ i < n, x % 2 ^ 32 ≠ place dst i) :
    load (memcpy m dst src n) x = load m x := memcpy_other outside

/-- Byte `i` of the destination is byte `i` of the source, taken modulo the distance of the two. -/
theorem memcpy_load {i : Nat} (fits : n ≤ 2 ^ 32) (inside : i < n) :
    load (memcpy m dst src n) (dst + i) = load m (src + i % distance dst src) := by
  show memcpy m dst src n (place dst i) = m (place src (i % distance dst src))
  rw [memcpy_forward]
  by_cases same : distance dst src = 0
  · rw [same, Nat.mod_zero]
    apply forward_plain (place_distinct fits) _ inside
    intro j within l before
    unfold distance at same
    unfold place
    omega
  · apply forward_period (place_distinct fits) (Nat.pos_of_ne_zero same) _ _ inside
    · intro j within early l before
      unfold distance at early
      unfold place
      omega
    · intro j within late
      unfold distance at late ⊢
      unfold place
      omega

/-- For every pair of buffers: what arrives, that nothing else changes, and that the bytes of the source arrive
as they were unless the destination begins inside the source, behind its first byte. -/
theorem memcpy_bytes (m : Memory) (dst src : Nat) (n : UInt32) :
    (∀ i < n.toNat, load (memcpy m dst src n.toNat) (dst + i) = load m (src + i % distance dst src)) ∧
      (∀ x, (∀ i < n.toNat, x ≠ (dst + i) % 2 ^ 32) → memcpy m dst src n.toNat x = m x) ∧
      (distance dst src = 0 ∨ n.toNat ≤ distance dst src →
        ∀ i < n.toNat, load (memcpy m dst src n.toNat) (dst + i) = load m (src + i)) := by
  have fits : n.toNat ≤ 2 ^ 32 := n.toNat_lt.le
  refine ⟨fun i inside => memcpy_load fits inside, fun x outside => memcpy_other outside, ?_⟩
  intro apart i inside
  rw [memcpy_load fits inside]
  rcases apart with same | far
  · rw [same, Nat.mod_zero]
  · rw [Nat.mod_eq_of_lt (inside.trans_le far)]

/-! Strings in memory. -/

section Strings
variable {s t : List UInt8} {a fuel : Nat}

/-- A text and its NUL, byte by byte. -/
theorem cString_iff : CString ∅ m a s ↔ (∀ i < s.length, load m (a + i) = s.getD i 0 ∧ s.getD i 0 ≠ 0) ∧ load m (a + s.length) = 0 := by
  constructor
  · intro text
    induction s generalizing a with
    | nil => exact ⟨fun i inside => absurd inside (Nat.not_lt_zero i), text.2⟩
    | cons b rest ih =>
      obtain ⟨-, byte, nonzero, later⟩ := text
      have tail := ih later
      rw [Nat.add_assoc, Nat.add_comm 1] at tail
      refine ⟨?_, tail.2⟩
      intro i inside
      cases i with
      | zero => exact ⟨byte, nonzero⟩
      | succ i =>
        have later := tail.1 i (Nat.lt_of_succ_lt_succ inside)
        rwa [Nat.add_assoc, Nat.add_comm 1] at later
  · intro ⟨bytes, nul⟩
    exact cString_of_bytes (fun k _ => id) bytes nul

theorem CString.nonzero (text : CString ∅ m a s) {i : Nat} (inside : i < s.length) : load m (a + i) ≠ 0 := by
  obtain ⟨byte, nonzero⟩ := (cString_iff.mp text).1 i inside
  rwa [byte]

theorem CString.nul (text : CString ∅ m a s) : load m (a + s.length) = 0 := (cString_iff.mp text).2

/-- A NUL is at least as far from a string's first byte as the string's own. -/
theorem CString.before (text : CString ∅ m a s) {x : Nat} (zero : load m x = 0) : s.length ≤ distance x a := by
  by_contra short
  have inside := Nat.not_le.mp short
  apply CString.nonzero text inside
  rw [← zero]
  apply load_congr
  unfold distance
  omega

/-- A string is shorter than the address space. -/
theorem CString.small (text : CString ∅ m a s) : s.length < 2 ^ 32 :=
  (CString.before text (CString.nul text)).trans_lt (distance_lt _ _)

/-- The bytes that `strcpy` reads are those of the string, unless it overwrites them before: then it is `memcpy`. -/
theorem strcpy_memcpy (text : CString ∅ m src t) (apart : ∀ i ≤ t.length, ∀ j < i, place src i ≠ place dst j)
    (enough : t.length < fuel) : strcpy fuel m dst src = some (memcpy m dst src (t.length + 1)) := by
  induction t generalizing m dst src fuel with
  | nil =>
    cases fuel with
    | zero => exact absurd enough (Nat.not_lt_zero _)
    | succ fuel =>
      show (if load m src = 0 then some (store m dst (load m src)) else _) = _
      rw [if_pos text.2]
      rfl
  | cons b rest ih =>
    cases fuel with
    | zero => exact absurd enough (Nat.not_lt_zero _)
    | succ fuel =>
      obtain ⟨-, byte, nonzero, later⟩ := text
      have kept : CString ∅ (store m dst (load m src)) (src + 1) rest := by
        rw [cString_iff] at later ⊢
        have load_kept (i : Nat) (within : i ≤ rest.length) :
            load (store m dst (load m src)) (src + 1 + i) = load m (src + 1 + i) := by
          have other := apart (i + 1) (Nat.succ_le_succ within) 0 (Nat.succ_pos i)
          rw [load_store, if_neg]
          unfold place at other
          rwa [Nat.add_assoc, Nat.add_comm 1]
        refine ⟨?_, (load_kept _ le_rfl).trans later.2⟩
        intro i inside
        rw [load_kept i inside.le]
        exact later.1 i inside
      show (if load m src = 0 then _ else strcpy fuel (store m dst (load m src)) (dst + 1) (src + 1)) = _
      rw [if_neg (by rwa [byte]), ih kept _ (Nat.lt_of_succ_lt_succ enough)]
      · rfl
      · intro i within j before
        rw [place_succ, place_succ]
        exact apart (i + 1) (Nat.succ_le_succ within) (j + 1) (Nat.succ_lt_succ before)

/-- What `strcpy` reads are bytes it has written, and so on without end. -/
theorem strcpy_chases {k : Nat} (positive : 0 < k) (behind : dst % 2 ^ 32 = place src k)
    (window : ∀ i < k, load m (src + i) ≠ 0) (fuel : Nat) : strcpy fuel m dst src = none := by
  induction fuel generalizing m dst src with
  | zero => rfl
  | succ fuel ih =>
    have nonzero : load m src ≠ 0 := window 0 positive
    show (if load m src = 0 then _ else strcpy fuel (store m dst (load m src)) (dst + 1) (src + 1)) = none
    rw [if_neg nonzero]
    apply ih
    · unfold place at behind ⊢
      omega
    · intro i inside
      rw [load_store]
      by_cases written : (src + 1 + i) % 2 ^ 32 = dst % 2 ^ 32
      · rwa [if_pos written]
      · rw [if_neg written, Nat.add_assoc, Nat.add_comm 1]
        apply window
        have other : i + 1 ≠ k := by
          intro same
          apply written
          rw [behind, ← same]
          unfold place
          omega
        omega

end Strings

/-- The two strings end in the same NUL. -/
def SameEnd (dst src : Nat) (s t : List UInt8) : Prop := place src t.length = place dst s.length

theorem strlenLoop_short {s : List UInt8} {a fuel : Nat} (text : CString ∅ m a s) (short : fuel ≤ s.length) :
    strlenLoop fuel m a = none := by
  induction s generalizing a fuel with
  | nil =>
    rw [Nat.le_zero.mp short]
    rfl
  | cons b rest ih =>
    cases fuel with
    | zero => rfl
    | succ fuel =>
      obtain ⟨-, byte, nonzero, later⟩ := text
      rw [strlenLoop, if_neg (by rwa [byte]), ih later (Nat.le_of_succ_le_succ short)]

section Append
variable {s t : List UInt8}

/-- Strings that end in different places, or of which the second is empty, have room behind one another. -/
theorem append_apart (left : CString ∅ m dst s) (right : CString ∅ m src t) (ends : ¬(t ≠ [] ∧ SameEnd dst src s t)) :
    (∀ i ≤ t.length, ∀ j < i, place src i ≠ place (dst + s.length) j) ∧ s.length + t.length < 2 ^ 32 := by
  have small := CString.small left
  have little := CString.small right
  have far := CString.before right (CString.nul left)
  have back := CString.before left (CString.nul right)
  by_cases empty : t = []
  · subst empty
    apply And.intro
    · intro i none_ j before
      exact absurd (before.trans_le none_) (Nat.not_lt_zero j)
    · exact small
  · have different : place src t.length ≠ place dst s.length := fun same => ends ⟨empty, same⟩
    unfold place distance at *
    apply And.intro
    · intro i within j before meets
      omega
    · omega

theorem memcpy_appends (left : CString ∅ m dst s) (right : CString ∅ m src t)
    (apart : ∀ i ≤ t.length, ∀ j < i, place src i ≠ place (dst + s.length) j) (room : s.length + t.length < 2 ^ 32) :
    CString ∅ (memcpy m (dst + s.length) src (t.length + 1)) dst (s ++ t) := by
  have moved (i : Nat) (within : i ≤ t.length) :
      load (memcpy m (dst + s.length) src (t.length + 1)) (dst + (s.length + i)) = load m (src + i) := by
    rw [memcpy_forward, ← Nat.add_assoc]
    apply forward_plain (place_distinct (by omega)) _ (Nat.lt_succ_of_le within)
    intro j inside l before
    exact apart j (Nat.le_of_lt_succ inside) l before
  have texts := (cString_iff.mp right)
  apply cString_iff.mpr
  rw [List.length_append, moved _ le_rfl]
  apply And.intro
  · intro i inside
    by_cases early : i < s.length
    · have kept : load (memcpy m (dst + s.length) src (t.length + 1)) (dst + i) = load m (dst + i) := by
        apply load_memcpy_other
        intro j _
        unfold place
        omega
      rw [kept, List.getD_append _ _ _ _ early]
      exact (cString_iff.mp left).1 i early
    · obtain ⟨k, rfl⟩ := Nat.exists_eq_add_of_le (Nat.not_lt.mp early)
      rw [moved k (by omega), List.getD_append_right _ _ _ _ (Nat.le_add_right _ _), Nat.add_sub_cancel_left]
      exact texts.1 k (by omega)
  · exact texts.2

/-- `strcat` on two strings that overlap in any way. It never returns when both end in the same NUL, which the first
byte of `src` replaces; otherwise, or when there is nothing to append, it appends `src` and changes no other byte. -/
theorem strcat_iff (left : CString ∅ m dst s) (right : CString ∅ m src t) :
    (t ≠ [] ∧ SameEnd dst src s t → ∀ fuel, strcat fuel m dst src = none) ∧
      (¬(t ≠ [] ∧ SameEnd dst src s t) → ∀ fuel, s.length < fuel → t.length < fuel →
        ∃ m', strcat fuel m dst src = some (m', dst) ∧ CString ∅ m' dst (s ++ t) ∧
          ∀ x, (∀ j ≤ t.length, x ≠ place (dst + s.length) j) → m' x = m x) := by
  have second {fuel : Nat} (enough : s.length < fuel) :
      strcat fuel m dst src = (strcpy fuel m (dst + s.length) src).map fun m => (m, dst) := by
    rw [strcat, strlenLoop_at left enough, Option.bind_some]
    rfl
  apply And.intro
  · intro ⟨some_, same⟩ fuel
    by_cases enough : s.length < fuel
    · rw [second enough, strcpy_chases (List.length_pos_of_ne_nil some_) same.symm, Option.map_none]
      intro i inside
      exact CString.nonzero right inside
    · rw [strcat, strlenLoop_short left (Nat.not_lt.mp enough), Option.bind_none]
  · intro ends fuel enough more
    obtain ⟨apart, room⟩ := append_apart left right ends
    refine ⟨memcpy m (dst + s.length) src (t.length + 1), ?_, memcpy_appends left right apart room, ?_⟩
    · rw [second enough, strcpy_memcpy right apart more, Option.map_some]
    · intro x outside
      exact memcpy_other fun j inside => outside j (Nat.le_of_lt_succ inside)

end Append

/-- Two texts in memory. -/
def twoTexts (s t : List UInt8) : Memory := fun x => if x < 0x200 then s.getD (x - 0x100) 0 else t.getD (x - 0x200) 0

def hard : List UInt8 := "hard ".toList.map ch
def disk : List UInt8 := "disk".toList.map ch

theorem hard_string : CString ∅ (twoTexts hard disk) 0x100 hard :=
  cString_of_bytes (fun _ _ => id) (by decide) (by decide)

theorem disk_string : CString ∅ (twoTexts hard disk) 0x200 disk :=
  cString_of_bytes (fun _ _ => id) (by decide) (by decide)

/-- One appended to the other, and the end of one to the whole. -/
theorem strcat_hardDisk : (∃ m', strcat 6 (twoTexts hard disk) 0x100 0x200 = some (m', 0x100) ∧
    CString ∅ m' 0x100 ("hard disk".toList.map ch)) ∧ ∀ fuel, strcat fuel (twoTexts hard disk) 0x100 0x103 = none := by
  apply And.intro
  · have apart : ¬(disk ≠ [] ∧ SameEnd 0x100 0x200 hard disk) := by
      unfold SameEnd place
      decide
    obtain ⟨m', ran, text, -⟩ := (strcat_iff hard_string disk_string).2 apart 6 (by decide) (by decide)
    exact ⟨m', ran, text⟩
  · have tail : CString ∅ (twoTexts hard disk) 0x103 (hard.drop 3) :=
      cString_of_bytes (fun _ _ => id) (by decide) (by decide)
    exact (strcat_iff hard_string tail).1 ⟨by decide, rfl⟩

end KOS.StringCopy
