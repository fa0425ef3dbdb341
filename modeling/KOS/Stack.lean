import KOS.LinkMemory

/-! Words on a stack that grows downwards in byte memory, and the list of what is on it: a push puts a word in front
of the list, a pop takes it off, and writes outside the range of the list do not change it. Nothing here names a
program. -/

namespace KOS.Stack
open KOS.ByteMemory KOS.LinkMemory

def word (m : Memory) (a : Nat) : UInt32 := UInt32.ofNat (load32 m a)

def setWord (m : Memory) (a : Nat) (v : UInt32) : Memory := store32 m a v.toNat

/-- The words of the list lie from `a` upwards. -/
def Words (m : Memory) : Nat → List UInt32 → Prop
  | _, [] => True
  | a, w :: ws => word m a = w ∧ Words m (a + 4) ws

/-- The address of a push, and of the stack after `n` words have been taken off; both wrap. -/
def down (esp : Nat) : Nat := (esp + (2 ^ 32 - 4)) % 2 ^ 32
def up (esp n : Nat) : Nat := (esp + 4 * n) % 2 ^ 32

/-- Pushes in order, so the last of them ends in front. -/
def pushAll : Memory → Nat → List UInt32 → Memory × Nat
  | m, esp, [] => (m, esp)
  | m, esp, v :: vs => pushAll (setWord m (down esp) v) (down esp) vs

variable {S : Set Nat} {m m' : Memory} {a esp : Nat} {v : UInt32} {ws : List UInt32}

theorem down_eq (room : 4 ≤ esp) (small : esp < 2 ^ 32) : down esp = esp - 4 := by
  unfold down
  omega

theorem up_eq {n : Nat} (fits : esp + 4 * n < 2 ^ 32) : up esp n = esp + 4 * n := Nat.mod_eq_of_lt fits

theorem word_setWord (m : Memory) (a : Nat) (v : UInt32) : word (setWord m a v) a = v := by
  rw [word, setWord, load32_store32 m a v.toNat_lt]
  exact UInt32.ofNat_toNat

theorem setWord_changes (m : Memory) (v : UInt32) (fits : a + 4 ≤ 2 ^ 32) :
    ChangesOnly (Set.Ico a (a + 4)) m (setWord m a v) := store32_changes m v.toNat fits

theorem word_congr (changes : ChangesOnly S m m') (fits : a + 4 ≤ 2 ^ 32) (outside : ∀ x ∈ Set.Ico a (a + 4), x ∉ S) :
    word m' a = word m a := by
  rw [word, word, changes.load32 fits outside]

theorem word_setWord_other (m : Memory) (v : UInt32) {b : Nat} (fits : a + 4 ≤ 2 ^ 32) (fits' : b + 4 ≤ 2 ^ 32)
    (apart : a + 4 ≤ b ∨ b + 4 ≤ a) : word (setWord m a v) b = word m b := by
  apply word_congr (setWord_changes m v fits) fits'
  intro x inside written
  have low := inside.1
  have high := inside.2
  have low' := written.1
  have high' := written.2
  omega

theorem Words.congr (words : Words m a ws) (changes : ChangesOnly S m m') (fits : a + 4 * ws.length ≤ 2 ^ 32)
    (outside : ∀ x ∈ Set.Ico a (a + 4 * ws.length), x ∉ S) : Words m' a ws := by
  induction ws generalizing a with
  | nil => trivial
  | cons w ws ih =>
    rw [List.length_cons] at fits outside
    constructor
    · rw [word_congr changes (by omega)]
      · exact words.1
      · intro x inside
        exact outside x (Set.Ico_subset_Ico_right (by omega) inside)
    · apply ih words.2 (by omega)
      intro x inside
      exact outside x (Set.Ico_subset_Ico (by omega) (by omega) inside)

theorem words_append (us : List UInt32) : Words m a (us ++ ws) ↔ Words m a us ∧ Words m (a + 4 * us.length) ws := by
  induction us generalizing a with
  | nil => simp [Words]
  | cons u us ih =>
    have next : a + 4 + 4 * us.length = a + 4 * (us.length + 1) := by omega
    rw [List.cons_append, Words, Words, ih, and_assoc, List.length_cons, next]

/-- Word `i` of the list. -/
theorem Words.get {i : Nat} {w : UInt32} (words : Words m a ws) (there : ws[i]? = some w) : word m (a + 4 * i) = w := by
  induction ws generalizing a i with
  | nil => exact absurd there (by simp)
  | cons u us ih =>
    cases i with
    | zero =>
      rw [List.getElem?_cons_zero] at there
      exact words.1.trans (Option.some.inj there)
    | succ i =>
      rw [List.getElem?_cons_succ] at there
      have later := ih words.2 there
      rw [show a + 4 * (i + 1) = a + 4 + 4 * i by omega]
      exact later

/-- A word in the middle is replaced. -/
theorem Words.set {k : Nat} (words : Words m a ws) (v : UInt32) (inside : k < ws.length)
    (fits : a + 4 * ws.length ≤ 2 ^ 32) : Words (setWord m (a + 4 * k) v) a (ws.set k v) := by
  induction ws generalizing a k with
  | nil => exact absurd inside (Nat.not_lt_zero k)
  | cons w ws ih =>
    rw [List.length_cons] at inside fits
    cases k with
    | zero =>
      rw [List.set_cons_zero, Nat.mul_zero, Nat.add_zero]
      constructor
      · exact word_setWord m a v
      · apply words.2.congr (setWord_changes m v (by omega)) (by omega)
        intro x later written
        have low := later.1
        have high := written.2
        omega
    | succ k =>
      rw [List.set_cons_succ]
      constructor
      · rw [word_setWord_other m v (by omega) (by omega) (by omega)]
        exact words.1
      · rw [show a + 4 * (k + 1) = a + 4 + 4 * k by omega]
        exact ih words.2 (by omega) (by omega)

/-- Any memory has some words there. -/
theorem exists_words (m : Memory) (a n : Nat) : ∃ ws : List UInt32, ws.length = n ∧ Words m a ws := by
  induction n generalizing a with
  | zero => exact ⟨[], rfl, trivial⟩
  | succ n ih =>
    obtain ⟨ws, length, words⟩ := ih (a + 4)
    exact ⟨word m a :: ws, by rw [List.length_cons, length], rfl, words⟩

/-- One push. -/
theorem Words.push (words : Words m esp ws) (v : UInt32) (room : 4 ≤ esp) (fits : esp + 4 * ws.length ≤ 2 ^ 32)
    (small : esp < 2 ^ 32) : Words (setWord m (down esp) v) (down esp) (v :: ws) := by
  rw [down_eq room small]
  constructor
  · exact word_setWord m _ v
  · rw [Nat.sub_add_cancel room]
    apply words.congr (setWord_changes m v (by omega)) fits
    intro x inside written
    have low := inside.1
    have high := written.2
    omega

theorem pushAll_esp (vs : List UInt32) (m : Memory) (room : 4 * vs.length ≤ esp) (small : esp < 2 ^ 32) :
    (pushAll m esp vs).2 = esp - 4 * vs.length := by
  induction vs generalizing m esp with
  | nil => rfl
  | cons v vs ih =>
    rw [List.length_cons] at room
    rw [pushAll, down_eq (by omega) small, ih _ (by omega) (by omega), List.length_cons]
    omega

theorem pushAll_changes (vs : List UInt32) (m : Memory) (room : 4 * vs.length ≤ esp) (small : esp < 2 ^ 32) :
    ChangesOnly (Set.Ico (esp - 4 * vs.length) esp) m (pushAll m esp vs).1 := by
  induction vs generalizing m esp with
  | nil => exact ChangesOnly.refl _ m
  | cons v vs ih =>
    rw [List.length_cons] at room ⊢
    rw [pushAll, down_eq (by omega) small]
    have first := setWord_changes (a := esp - 4) m v (by omega)
    have room' : 4 * vs.length ≤ esp - 4 := by omega
    have rest := ih (setWord m (esp - 4) v) room' (by omega)
    apply (first.mono _).trans (rest.mono _)
    · exact Set.Ico_subset_Ico (by omega) (by omega)
    · exact Set.Ico_subset_Ico (by omega) (by omega)

/-- Many pushes. -/
theorem Words.pushAll (words : Words m esp ws) (vs : List UInt32) (room : 4 * vs.length ≤ esp)
    (fits : esp + 4 * ws.length ≤ 2 ^ 32) (small : esp < 2 ^ 32) :
    Words (Stack.pushAll m esp vs).1 (esp - 4 * vs.length) (vs.reverse ++ ws) := by
  induction vs generalizing m esp ws with
  | nil => exact words
  | cons v vs ih =>
    rw [List.length_cons] at room ⊢
    have pushed := words.push v (by omega) fits small
    rw [Stack.pushAll, List.reverse_cons, List.append_assoc]
    rw [down_eq (by omega) small] at pushed ⊢
    have all := ih pushed (by omega) (by rw [List.length_cons]; omega) (by omega)
    rw [show esp - 4 * (vs.length + 1) = esp - 4 - 4 * vs.length by omega]
    exact all

end KOS.Stack
