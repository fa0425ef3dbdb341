import KOS.ByteMemory
import KOS.KernelList

/-! Words in a byte memory, and list nodes as two words: `prev`, then `next`. An edit of a list
changes bytes of its nodes only. -/

namespace KOS.LinkMemory
open KOS.ByteMemory KOS.DoublyLinked KOS.KernelList NodeStore

/-- Little endian. -/
def load32 (m : Memory) (a : Nat) : Nat :=
  (load m a).toNat + 2 ^ 8 * (load m (a + 1)).toNat + 2 ^ 16 * (load m (a + 2)).toNat + 2 ^ 24 * (load m (a + 3)).toNat

def word16 (byte : Nat → UInt8) (a : Nat) : Nat := (byte a).toNat + 2 ^ 8 * (byte (a + 1)).toNat

def byteOf (v i : Nat) : UInt8 := UInt8.ofNat (v / 2 ^ (8 * i))

def store32 (m : Memory) (a v : Nat) : Memory := fill m a 4 (byteOf v)

theorem byteOf_toNat (v i : Nat) : (byteOf v i).toNat = v / 2 ^ (8 * i) % 2 ^ 8 := UInt8.toNat_ofNat'

theorem load32_store32 (m : Memory) (a : Nat) {v : Nat} (small : v < 2 ^ 32) : load32 (store32 m a v) a = v := by
  have at_ : ∀ k, k < 4 → load (store32 m a v) (a + k) = byteOf v k := by
    intro k inside
    rw [store32, load_fill m a 4 (byteOf v) (by decide) k (by omega), if_pos inside]
  have first := at_ 0 (by decide)
  rw [Nat.add_zero] at first
  rw [load32, first, at_ 1 (by decide), at_ 2 (by decide), at_ 3 (by decide)]
  simp only [byteOf_toNat]
  omega

/-! What a store leaves alone. -/

/-- `m'` differs from `m` only at addresses of `S`. -/
def ChangesOnly (S : Set Nat) (m m' : Memory) : Prop := ∀ x, x ∉ S → m' x = m x

variable {S T : Set Nat} {m m' m'' : Memory}

theorem ChangesOnly.refl (S : Set Nat) (m : Memory) : ChangesOnly S m m := fun _ _ => rfl

theorem ChangesOnly.trans (first : ChangesOnly S m m') (second : ChangesOnly S m' m'') : ChangesOnly S m m'' :=
  fun x outside => (second x outside).trans (first x outside)

theorem ChangesOnly.mono (changes : ChangesOnly S m m') (more : S ⊆ T) : ChangesOnly T m m' :=
  fun x outside => changes x fun inside => outside (more inside)

theorem fill_other (m : Memory) (a n : Nat) (f : Nat → UInt8) {x : Nat} (outside : ∀ i < n, x ≠ (a + i) % 2 ^ 32) :
    fill m a n f x = m x := by
  induction n generalizing m a f with
  | zero => rfl
  | succ n ih =>
    rw [fill, ih]
    · exact if_neg (outside 0 (by omega))
    · intro i inside
      rw [Nat.add_assoc, Nat.add_comm 1 i]
      exact outside (i + 1) (by omega)

theorem fill_changes (m : Memory) {a n : Nat} (f : Nat → UInt8) (fits : a + n ≤ 2 ^ 32) :
    ChangesOnly (Set.Ico a (a + n)) m (fill m a n f) := by
  intro x outside
  apply fill_other
  intro i inside
  rw [Nat.mod_eq_of_lt (by omega)]
  rintro rfl
  exact outside ⟨by omega, by omega⟩

theorem store32_changes (m : Memory) {a : Nat} (v : Nat) (fits : a + 4 ≤ 2 ^ 32) :
    ChangesOnly (Set.Ico a (a + 4)) m (store32 m a v) := fill_changes m _ fits

theorem store_changes (m : Memory) {a : Nat} (v : UInt8) (fits : a < 2 ^ 32) : ChangesOnly {a} m (store m a v) := by
  intro x outside
  apply if_neg
  rw [Nat.mod_eq_of_lt fits]
  exact outside

theorem memset_changes (m : Memory) {a n : Nat} (ch : UInt8) (fits : a + n ≤ 2 ^ 32) :
    ChangesOnly (Set.Ico a (a + n)) m (memset m a ch n) := by
  rw [memset_eq_fill]
  exact fill_changes m _ fits

theorem memset_at (m : Memory) {a n x : Nat} (ch : UInt8) (fits : a + n ≤ 2 ^ 32) (inside : x ∈ Set.Ico a (a + n)) :
    memset m a ch n x = ch := by
  obtain ⟨low, high⟩ := inside
  have filled := load_fill m a n (fun _ => ch) (by omega) (x - a) (by omega)
  rw [Nat.add_sub_cancel' low, if_pos (by omega), load, Nat.mod_eq_of_lt (by omega)] at filled
  rw [memset_eq_fill]
  exact filled

theorem ChangesOnly.load {a : Nat} (changes : ChangesOnly S m m') (outside : a % 2 ^ 32 ∉ S) : load m' a = load m a :=
  changes _ outside

theorem ChangesOnly.load32 {a : Nat} (changes : ChangesOnly S m m') (fits : a + 4 ≤ 2 ^ 32)
    (outside : ∀ x ∈ Set.Ico a (a + 4), x ∉ S) : load32 m' a = load32 m a := by
  have byte : ∀ i, i < 4 → ByteMemory.load m' (a + i) = ByteMemory.load m (a + i) := by
    intro i inside
    apply changes.load
    rw [Nat.mod_eq_of_lt (by omega)]
    exact outside _ ⟨by omega, by omega⟩
  have first := byte 0 (by decide)
  rw [Nat.add_zero] at first
  simp only [LinkMemory.load32, first, byte 1 (by decide), byte 2 (by decide), byte 3 (by decide)]

/-! List nodes. -/

theorem load32_store32_apart (m : Memory) {a b : Nat} (v : Nat)
    (apart : ∀ i < 4, ∀ j < 4, (b + i) % 2 ^ 32 ≠ (a + j) % 2 ^ 32) : load32 (store32 m a v) b = load32 m b := by
  have byte : ∀ i, i < 4 → load (store32 m a v) (b + i) = load m (b + i) := by
    intro i inside
    exact fill_other m a 4 (byteOf v) (fun j low => apart i inside j low)
  have first := byte 0 (by decide)
  rw [Nat.add_zero] at first
  simp only [load32, first, byte 1 (by decide), byte 2 (by decide), byte 3 (by decide)]

/-- A node is its address. -/
instance : NodeStore Memory Nat where
  prev m x := load32 m x
  next m x := load32 m (x + 4)
  setPrev m x v := store32 m x v
  setNext m x v := store32 m (x + 4) v
  Apart x y := ∀ i < 8, ∀ j < 8, (x + i) % 2 ^ 32 ≠ (y + j) % 2 ^ 32
  Fits v := v < 2 ^ 32
  apart_symm apart := fun i inside j inside' => (apart j inside' i inside).symm
  next_setNext m _ _ small := load32_store32 m _ small
  prev_setPrev m _ _ small := load32_store32 m _ small
  next_setNext_apart m v x y apart := by
    apply load32_store32_apart
    intro i inside j inside' same
    rw [Nat.add_assoc, Nat.add_assoc] at same
    exact apart (4 + j) (by omega) (4 + i) (by omega) same.symm
  prev_setPrev_apart m v x y apart := by
    apply load32_store32_apart
    intro i inside j inside' same
    exact apart j (by omega) i (by omega) same.symm
  next_setPrev m v x y apart := by
    apply load32_store32_apart
    intro i inside j inside' same
    rcases apart with rfl | apart
    · omega
    · rw [Nat.add_assoc] at same
      exact apart j (by omega) (4 + i) (by omega) same.symm
  prev_setNext m v x y apart := by
    apply load32_store32_apart
    intro i inside j inside' same
    rcases apart with rfl | apart
    · omega
    · rw [Nat.add_assoc] at same
      exact apart (4 + j) (by omega) i (by omega) same.symm

theorem not_apart_self (x : Nat) : ¬ Apart Memory x x := fun apart => apart 0 (by decide) 0 (by decide) rfl

theorem apart_of_gap {x y : Nat} (fits : x + 8 ≤ 2 ^ 32) (fits' : y + 8 ≤ 2 ^ 32) (gap : x + 8 ≤ y ∨ y + 8 ≤ x) :
    Apart Memory x y := by
  intro i inside j inside'
  rw [Nat.mod_eq_of_lt (by omega), Nat.mod_eq_of_lt (by omega)]
  omega

/-- The bytes of the links of some nodes. -/
def cells (nodes : List Nat) : Set Nat := {a | ∃ x ∈ nodes, a ∈ Set.Ico x (x + 8)}

theorem cells_mono {nodes others : List Nat} (more : nodes ⊆ others) : cells nodes ⊆ cells others :=
  fun _ ⟨x, member, inside⟩ => ⟨x, more member, inside⟩

theorem join_changes (m : Memory) {x y : Nat} (fits : x + 8 ≤ 2 ^ 32) (fits' : y + 8 ≤ 2 ^ 32) :
    ChangesOnly (cells [x, y]) m (join m x y) := by
  have first : ChangesOnly (cells [x, y]) m (setNext m x y) := by
    apply (store32_changes m y (by omega)).mono
    rintro a ⟨low, high⟩
    exact ⟨x, by simp, by omega, by omega⟩
  apply first.trans
  apply (store32_changes _ x (by omega)).mono
  rintro a ⟨low, high⟩
  exact ⟨y, by simp, low, by omega⟩

variable {plist : KList Nat} {nodes : List Nat}

theorem listAppend_changes {e : Nat} (holds : Holds m plist nodes)
    (fits : ∀ x ∈ e :: plist.head :: nodes ++ [plist.tail], x + 8 ≤ 2 ^ 32) :
    ChangesOnly (cells (e :: plist.head :: nodes ++ [plist.tail])) m (listAppend m plist e) := by
  obtain ⟨front, x, left⟩ := front_last plist.head nodes
  have shape : plist.head :: nodes ++ [plist.tail] = front ++ x :: plist.tail :: [] := by rw [left]; simp
  have linked : Threaded m (front ++ x :: plist.tail :: []) := shape ▸ holds
  obtain ⟨edge, apart⟩ := neighbours _ _ linked
  have back : prev m plist.tail = x := edge.2
  have member : ∀ z ∈ [x, plist.tail], z ∈ plist.head :: nodes ++ [plist.tail] := by
    intro z inside
    rw [shape]
    exact List.mem_append_right _ inside
  have last := fits x (List.mem_cons_of_mem _ (member x (by simp)))
  have tail := fits plist.tail (List.mem_cons_of_mem _ (member plist.tail (by simp)))
  have new := fits e (by simp)
  rw [listAppend, listInsert_eq_join (by rw [back]; exact apart), back]
  have before : ChangesOnly (cells (e :: plist.head :: nodes ++ [plist.tail])) m (join m x e) := by
    apply (join_changes m last new).mono
    apply cells_mono
    intro z inside
    rcases List.mem_cons.mp inside with rfl | single
    · exact List.mem_cons_of_mem _ (member z (by simp))
    · rw [List.mem_singleton.mp single]
      exact List.mem_cons_self
  apply before.trans
  apply (join_changes _ new tail).mono
  apply cells_mono
  intro z inside
  rcases List.mem_cons.mp inside with rfl | single
  · exact List.mem_cons_self
  · rw [List.mem_singleton.mp single]
    exact List.mem_cons_of_mem _ (member _ (by simp))

theorem listRemove_changes (before : List Nat) {after : List Nat} {e : Nat} (holds : Holds m plist (before ++ e :: after))
    (fits : ∀ x ∈ plist.head :: (before ++ e :: after) ++ [plist.tail], x + 8 ≤ 2 ^ 32) :
    ChangesOnly (cells (plist.head :: (before ++ e :: after) ++ [plist.tail])) m (listRemove m e) := by
  obtain ⟨front, x, left⟩ := front_last plist.head before
  obtain ⟨y, back, right⟩ := first_back after plist.tail
  have shape : plist.head :: (before ++ e :: after) ++ [plist.tail] = front ++ x :: e :: y :: back := by
    calc plist.head :: (before ++ e :: after) ++ [plist.tail]
        = (plist.head :: before) ++ e :: (after ++ [plist.tail]) := by simp
      _ = front ++ x :: e :: y :: back := by rw [left, right]; simp
  unfold Holds at holds
  rw [shape] at holds fits ⊢
  obtain ⟨edge, apart⟩ := neighbours front (y :: back) holds
  obtain ⟨edge', -⟩ := neighbours (front ++ [x]) back (by simpa using holds)
  rw [listRemove_eq_join (by rw [edge.2]; exact apart), edge.2, edge'.1]
  apply (join_changes m (fits x (by simp)) (fits y (by simp))).mono
  apply cells_mono
  intro z inside
  rcases List.mem_cons.mp inside with rfl | single
  · simp
  · rw [List.mem_singleton.mp single]
    simp

theorem holds_nodup (holds : Holds m plist nodes) : nodes.Nodup := by
  have inner := holds.apart.sublist (List.sublist_append_left _ _)
  apply (List.pairwise_cons.mp inner).2.imp
  rintro x _ apart rfl
  exact not_apart_self x apart

/-- A change away from the nodes of a list leaves it alone. -/
theorem holds_kept (holds : Holds m plist nodes) (changes : ChangesOnly S m m')
    (fits : ∀ x ∈ plist.head :: nodes ++ [plist.tail], x + 8 ≤ 2 ^ 32)
    (away : ∀ x ∈ plist.head :: nodes ++ [plist.tail], ∀ a ∈ Set.Ico x (x + 8), a ∉ S) : Holds m' plist nodes := by
  apply holds.transport
  intro x member
  have below := fits x member
  have words : ∀ y, x ≤ y → y + 4 ≤ x + 8 → load32 m' y = load32 m y := by
    intro y low high
    apply changes.load32 (by omega)
    intro a inside
    exact away x member a ⟨low.trans inside.1, inside.2.trans_le high⟩
  exact ⟨words (x + 4) (Nat.le_add_right x 4) le_rfl, words x le_rfl (by omega)⟩

end KOS.LinkMemory
