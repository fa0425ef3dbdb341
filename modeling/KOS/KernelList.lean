import KOS.DoublyLinked

/-! `list.c`: the intrusive list with head and tail sentinels, over any store of link fields. -/

namespace KOS.KernelList
open KOS.DoublyLinked NodeStore

/-- `struct list`: the addresses of its two sentinels. -/
structure KList (ν : Type*) where
  head : ν
  tail : ν

variable {σ ν : Type*} [NodeStore σ ν]

def listInit (null : ν) (s : σ) (plist : KList ν) : σ :=
  let s := setPrev s plist.head null
  let s := setNext s plist.head plist.tail
  let s := setPrev s plist.tail plist.head
  setNext s plist.tail null

def listInsert (s : σ) (prevElem elem : ν) : σ :=
  let s := setNext s (prev s prevElem) elem
  let s := setPrev s elem (prev s prevElem)
  let s := setNext s elem prevElem
  setPrev s prevElem elem

def listRemove (s : σ) (elem : ν) : σ :=
  let s := setNext s (prev s elem) (next s elem)
  setPrev s (next s elem) (prev s elem)

def listAppend (s : σ) (plist : KList ν) (elem : ν) : σ := listInsert s plist.tail elem

def listPush (s : σ) (plist : KList ν) (elem : ν) : σ := listInsert s (next s plist.head) elem

def listEmpty [DecidableEq ν] (s : σ) (plist : KList ν) : Bool := next s plist.head = plist.tail

/-- `none` stands for the NULL of an empty list. -/
def listPop [DecidableEq ν] (s : σ) (plist : KList ν) : Option ν × σ :=
  if listEmpty s plist then (none, s)
  else (some (next s plist.head), listRemove s (next s plist.head))

/-! The three loops stop at the tail sentinel; `none` stands for a walk that the fuel did not finish. -/

def listLenLoop [DecidableEq ν] (s : σ) (plist : KList ν) : Nat → ν → Nat → Option Nat
  | 0, _, _ => none
  | fuel + 1, elem, length =>
      if elem = plist.tail then some length
      else listLenLoop s plist fuel (next s elem) ((length + 1) % 2 ^ 32)

def listLen [DecidableEq ν] (fuel : Nat) (s : σ) (plist : KList ν) : Option Nat :=
  listLenLoop s plist fuel (next s plist.head) 0

def listFindLoop [DecidableEq ν] (s : σ) (plist : KList ν) (elem : ν) : Nat → ν → Option Bool
  | 0, _ => none
  | fuel + 1, curElem =>
      if curElem = plist.tail then some false
      else if curElem = elem then some true
      else listFindLoop s plist elem fuel (next s curElem)

def listFind [DecidableEq ν] (fuel : Nat) (s : σ) (plist : KList ν) (elem : ν) : Option Bool :=
  listFindLoop s plist elem fuel (next s plist.head)

def listTraversalLoop [DecidableEq ν] (s : σ) (plist : KList ν) (func : ν → Int → Bool) (arg : Int) :
    Nat → ν → Option (Option ν)
  | 0, _ => none
  | fuel + 1, elem =>
      if elem = plist.tail then some none
      else if func elem arg then some (some elem)
      else listTraversalLoop s plist func arg fuel (next s elem)

/-- The inner `none` is the NULL of a traversal without a match. -/
def listTraversal [DecidableEq ν] (fuel : Nat) (s : σ) (plist : KList ν) (func : ν → Int → Bool) (arg : Int) :
    Option (Option ν) :=
  if listEmpty s plist then some none
  else listTraversalLoop s plist func arg fuel (next s plist.head)

/-- The list holds exactly `nodes`, in this order. -/
def Holds (s : σ) (plist : KList ν) (nodes : List ν) : Prop :=
  Threaded s (plist.head :: nodes ++ [plist.tail])

theorem listInsert_eq_join {s : σ} {p e : ν} (apart : Apart σ (prev s p) p) :
    listInsert s p e = join (join s (prev s p) e) e p := by
  simp only [listInsert, join, prev_setNext s e (.inr apart)]

theorem listRemove_eq_join {s : σ} {e : ν} (apart : Apart σ (prev s e) e) :
    listRemove s e = join s (prev s e) (next s e) := by
  simp only [listRemove, join, prev_setNext s (next s e) (.inr apart),
    next_setNext_apart s (next s e) apart]

/-- Neighbours in a list are joined and apart. -/
theorem neighbours {s : σ} (before after : List ν) {x y : ν}
    (linked : Threaded s (before ++ x :: y :: after)) : Edge s x y ∧ Apart σ x y := by
  constructor
  · exact (List.isChain_append_cons_cons.mp linked.chain).2.1
  · exact (List.pairwise_cons.mp (List.pairwise_append.mp linked.apart).2.1).1 y (by simp)

theorem listInsert_threaded {s : σ} (before after : List ν) {x p e : ν}
    (linked : Threaded s (before ++ x :: p :: after))
    (fresh : ∀ z ∈ before ++ x :: p :: after, Apart σ e z) (fits : Fits σ e) :
    Threaded (listInsert s p e) (before ++ x :: e :: p :: after) := by
  obtain ⟨edge, apart⟩ := neighbours _ _ linked
  rw [listInsert_eq_join (by rw [edge.2]; exact apart), edge.2]
  exact linked.between fresh fits

theorem listRemove_threaded {s : σ} (before after : List ν) {x e y : ν}
    (linked : Threaded s (before ++ x :: e :: y :: after)) :
    Threaded (listRemove s e) (before ++ x :: y :: after) := by
  obtain ⟨left, apart⟩ := neighbours _ _ linked
  have linked' : Threaded s ((before ++ [x]) ++ e :: y :: after) := by simpa using linked
  obtain ⟨right, -⟩ := neighbours _ _ linked'
  rw [listRemove_eq_join (by rw [left.2]; exact apart), left.2, right.1]
  exact Threaded.bypass [e] (by simpa using linked)

theorem listEmpty_iff [DecidableEq ν] {s : σ} {plist : KList ν} {nodes : List ν}
    (holds : Holds s plist nodes) (irreflexive : ∀ x, ¬ Apart σ x x) :
    listEmpty s plist = true ↔ nodes = [] := by
  unfold Holds at holds
  rw [listEmpty, decide_eq_true_iff]
  cases nodes with
  | nil =>
    obtain ⟨edge, -⟩ := neighbours [] [] holds
    exact ⟨fun _ => rfl, fun _ => edge.1⟩
  | cons x rest =>
    obtain ⟨edge, -⟩ := neighbours [] (rest ++ [plist.tail]) holds
    constructor
    · intro empty
      have last : x = plist.tail := edge.1.symm.trans empty
      have apart := holds.apart
      rw [List.cons_append, List.cons_append, List.pairwise_cons, List.pairwise_cons] at apart
      exact absurd (apart.2.1 x (by simp [last])) (irreflexive x)
    · intro none
      cases none

theorem listInit_holds (null : ν) (s : σ) {plist : KList ν} (apart : Apart σ plist.head plist.tail)
    (fitsHead : Fits σ plist.head) (fitsTail : Fits σ plist.tail) :
    Holds (listInit null s plist) plist [] := by
  have apart' := apart_symm apart
  refine ⟨.cons_cons ⟨?_, ?_⟩ (.singleton _), ?_, ?_⟩
  · rw [listInit, next_setNext_apart _ _ apart', next_setPrev _ _ (.inr apart'),
      next_setNext _ fitsTail]
  · rw [listInit, prev_setNext _ _ (.inl rfl), prev_setPrev _ fitsHead]
  · simpa using apart
  · simp [fitsHead, fitsTail]

theorem listAppend_holds {s : σ} {plist : KList ν} {nodes : List ν} {e : ν}
    (holds : Holds s plist nodes) (fits : Fits σ e)
    (fresh : ∀ z ∈ plist.head :: nodes ++ [plist.tail], Apart σ e z) :
    Holds (listAppend s plist e) plist (nodes ++ [e]) := by
  unfold Holds at *
  rcases List.eq_nil_or_concat nodes with rfl | ⟨front, last, rfl⟩
  · exact listInsert_threaded [] [] holds fresh fits
  · have inserted := listInsert_threaded (s := s) (plist.head :: front) [] (x := last)
      (p := plist.tail) (e := e) (by simpa using holds) (by simpa using fresh) fits
    simpa [listAppend] using inserted

theorem listPush_holds {s : σ} {plist : KList ν} {nodes : List ν} {e : ν}
    (holds : Holds s plist nodes) (fits : Fits σ e)
    (fresh : ∀ z ∈ plist.head :: nodes ++ [plist.tail], Apart σ e z) :
    Holds (listPush s plist e) plist (e :: nodes) := by
  unfold Holds at *
  unfold listPush
  cases nodes with
  | nil =>
    obtain ⟨edge, -⟩ := neighbours [] [] holds
    rw [edge.1]
    exact listInsert_threaded [] [] holds fresh fits
  | cons first rest =>
    obtain ⟨edge, -⟩ := neighbours [] (rest ++ [plist.tail]) holds
    rw [edge.1]
    exact listInsert_threaded [] (rest ++ [plist.tail]) holds fresh fits

theorem listPop_holds [DecidableEq ν] {s : σ} {plist : KList ν} {first : ν} {rest : List ν}
    (holds : Holds s plist (first :: rest)) (irreflexive : ∀ x, ¬ Apart σ x x) :
    listPop s plist = (some first, listRemove s first) ∧
      Holds (listRemove s first) plist rest := by
  have nonempty : ¬ listEmpty s plist = true := by
    rw [listEmpty_iff holds irreflexive]
    exact List.cons_ne_nil first rest
  unfold Holds at *
  obtain ⟨edge, -⟩ := neighbours [] (rest ++ [plist.tail]) holds
  constructor
  · rw [listPop, if_neg nonempty, edge.1]
  · cases rest with
    | nil => exact listRemove_threaded [] [] holds
    | cons second later =>
      exact listRemove_threaded [] (later ++ [plist.tail]) holds

/-- A node and what follows it, by the last of them. -/
theorem front_last (a : ν) (l : List ν) : ∃ front x, a :: l = front ++ [x] :=
  ⟨_, _, (List.dropLast_append_getLast (List.cons_ne_nil a l)).symm⟩

theorem first_back (l : List ν) (z : ν) : ∃ y back, l ++ [z] = y :: back :=
  List.exists_cons_of_ne_nil (List.concat_ne_nil z l)

theorem Holds.first {s : σ} {plist : KList ν} {first : ν} {rest : List ν}
    (holds : Holds s plist (first :: rest)) :
    Edge s plist.head first ∧ Apart σ plist.head first :=
  neighbours [] (rest ++ [plist.tail]) holds

/-- A removed front element keeps its own links: back to the head, forward to the new front. -/
theorem listRemove_keeps_links {s : σ} {plist : KList ν} {first : ν} {rest : List ν}
    (holds : Holds s plist (first :: rest)) :
    prev (listRemove s first) first = plist.head ∧
      next (listRemove s first) first = next (listRemove s first) plist.head := by
  obtain ⟨front, apartHead⟩ := holds.first
  obtain ⟨y, back, later⟩ := first_back rest plist.tail
  have shape : plist.head :: (first :: rest) ++ [plist.tail] = [plist.head] ++ first :: y :: back := by
    rw [← later]
    simp
  have linked : Threaded s ([plist.head] ++ first :: y :: back) := shape ▸ holds
  obtain ⟨second, apartNext⟩ := neighbours _ _ linked
  have fitsNext : Fits σ y := linked.fits y (by simp)
  have apartEnds : Apart σ plist.head y :=
    (List.pairwise_cons.mp linked.apart).1 y (by simp)
  have joined : listRemove s first = join s plist.head y := by
    rw [listRemove_eq_join (by rw [front.2]; exact apartHead), front.2, second.1]
  rw [joined]
  constructor
  · rw [prev_join_apart s (.inr apartHead) (apart_symm apartNext), front.2]
  · rw [next_join_apart s apartHead (.inr (apart_symm apartNext)), second.1, join,
      next_setPrev _ _ (.inr (apart_symm apartEnds)), next_setNext _ fitsNext]

theorem listRemove_holds {s : σ} {plist : KList ν} {before after : List ν} {e : ν}
    (holds : Holds s plist (before ++ e :: after)) :
    Holds (listRemove s e) plist (before ++ after) := by
  unfold Holds at *
  obtain ⟨front, x, left⟩ := front_last plist.head before
  obtain ⟨y, back, right⟩ := first_back after plist.tail
  have shape (middle : List ν) :
      plist.head :: (before ++ middle ++ after) ++ [plist.tail] = front ++ x :: (middle ++ y :: back) := by
    rw [← List.cons_append, ← List.cons_append, left, List.append_assoc, right]
    simp
  have kept := shape []
  have removed := shape [e]
  simp only [List.append_nil, List.nil_append, List.append_assoc, List.singleton_append] at kept removed
  rw [removed] at holds
  rw [kept]
  exact listRemove_threaded _ _ holds

/-- Inserting next to `p` touches no node apart from `p`, its neighbour and the new node. -/
theorem listInsert_away {s : σ} {p e z : ν} (apart : Apart σ (prev s p) p)
    (left : Apart σ (prev s p) z) (new : Apart σ e z) (right : Apart σ p z) :
    next (listInsert s p e) z = next s z ∧ prev (listInsert s p e) z = prev s z := by
  rw [listInsert_eq_join apart]
  constructor
  · rw [next_join_apart _ new (.inr right), next_join_apart _ left (.inr new)]
  · rw [prev_join_apart _ (.inr new) right, prev_join_apart _ (.inr left) new]

/-- The place before `p`: what stands left of it, as links. -/
theorem insertion_point (plist : KList ν) (before after : List ν) {p : ν} {rest : List ν}
    (here : after ++ [plist.tail] = p :: rest) : ∃ front x, ∀ middle,
      plist.head :: (before ++ middle ++ after) ++ [plist.tail] = front ++ x :: (middle ++ p :: rest) := by
  obtain ⟨front, x, left⟩ := front_last plist.head before
  refine ⟨front, x, fun middle => ?_⟩
  calc plist.head :: (before ++ middle ++ after) ++ [plist.tail]
      = (plist.head :: before) ++ (middle ++ (after ++ [plist.tail])) := by simp
    _ = front ++ x :: (middle ++ p :: rest) := by rw [left, here]; simp

/-- `list_insert` before any element, or before the tail. -/
theorem listInsert_holds {s : σ} {plist : KList ν} {before after rest : List ν} {p e : ν}
    (holds : Holds s plist (before ++ after)) (here : after ++ [plist.tail] = p :: rest) (fits : Fits σ e)
    (fresh : ∀ z ∈ plist.head :: (before ++ after) ++ [plist.tail], Apart σ e z) :
    Holds (listInsert s p e) plist (before ++ e :: after) := by
  obtain ⟨front, x, shape⟩ := insertion_point plist before after here
  have old := shape []
  have new := shape [e]
  simp only [List.append_nil, List.nil_append, List.append_assoc, List.singleton_append] at old new
  unfold Holds at *
  rw [old] at holds fresh
  rw [new]
  exact listInsert_threaded front rest holds fresh fits

theorem listInsert_outside {s : σ} {plist : KList ν} {before after rest : List ν} {p e z : ν}
    (holds : Holds s plist (before ++ after)) (here : after ++ [plist.tail] = p :: rest) (new : Apart σ e z)
    (outside : ∀ x ∈ plist.head :: (before ++ after) ++ [plist.tail], Apart σ x z) :
    next (listInsert s p e) z = next s z ∧ prev (listInsert s p e) z = prev s z := by
  obtain ⟨front, x, shape⟩ := insertion_point plist before after here
  have old := shape []
  simp only [List.append_nil, List.nil_append] at old
  unfold Holds at holds
  rw [old] at holds outside
  obtain ⟨edge, apart⟩ := neighbours front rest holds
  apply listInsert_away
  · rw [edge.2]
    exact apart
  · rw [edge.2]
    exact outside x (by simp)
  · exact new
  · exact outside p (by simp)

theorem listInit_away (null : ν) (s : σ) {plist : KList ν} {z : ν} (head : Apart σ plist.head z)
    (tail : Apart σ plist.tail z) :
    next (listInit null s plist) z = next s z ∧ prev (listInit null s plist) z = prev s z := by
  unfold listInit
  constructor
  · rw [next_setNext_apart _ _ tail, next_setPrev _ _ (.inr tail), next_setNext_apart _ _ head,
      next_setPrev _ _ (.inr head)]
  · rw [prev_setNext _ _ (.inr tail), prev_setPrev_apart _ _ tail, prev_setNext _ _ (.inr head),
      prev_setPrev_apart _ _ head]

theorem listAppend_away {s : σ} {plist : KList ν} {nodes : List ν} {e z : ν}
    (holds : Holds s plist nodes) (new : Apart σ e z)
    (outside : ∀ x ∈ plist.head :: nodes ++ [plist.tail], Apart σ x z) :
    next (listAppend s plist e) z = next s z ∧ prev (listAppend s plist e) z = prev s z := by
  obtain ⟨front, x, left⟩ := front_last plist.head nodes
  unfold Holds at holds
  rw [left] at holds outside
  have linked : Threaded s (front ++ x :: plist.tail :: []) := by simpa using holds
  obtain ⟨edge, apart⟩ := neighbours _ _ linked
  have back : prev s plist.tail = x := edge.2
  apply listInsert_away
  · rw [back]
    exact apart
  · rw [back]
    exact outside x (by simp)
  · exact new
  · exact outside plist.tail (by simp)

theorem listPush_away {s : σ} {plist : KList ν} {nodes : List ν} {e z : ν}
    (holds : Holds s plist nodes) (new : Apart σ e z)
    (outside : ∀ x ∈ plist.head :: nodes ++ [plist.tail], Apart σ x z) :
    next (listPush s plist e) z = next s z ∧ prev (listPush s plist e) z = prev s z := by
  obtain ⟨y, back, right⟩ : ∃ y back, nodes ++ [plist.tail] = y :: back :=
    List.exists_cons_of_ne_nil (by simp)
  unfold Holds at holds
  rw [List.cons_append, right] at holds outside
  obtain ⟨edge, apart⟩ := neighbours [] _ holds
  have start : prev s (next s plist.head) = plist.head := by rw [edge.1, edge.2]
  apply listInsert_away
  · rw [start, edge.1]
    exact apart
  · rw [start]
    exact outside plist.head (by simp)
  · exact new
  · rw [edge.1]
    exact outside y (by simp)

/-- Removing a node of the list touches no node apart from the whole list. -/
theorem listRemove_away {s : σ} {plist : KList ν} {before after : List ν} {e z : ν}
    (holds : Holds s plist (before ++ e :: after))
    (outside : ∀ x ∈ plist.head :: (before ++ e :: after) ++ [plist.tail], Apart σ x z) :
    next (listRemove s e) z = next s z ∧ prev (listRemove s e) z = prev s z := by
  unfold Holds at holds
  obtain ⟨front, x, left⟩ := front_last plist.head before
  obtain ⟨y, back, right⟩ := first_back after plist.tail
  have shape : plist.head :: (before ++ e :: after) ++ [plist.tail] = front ++ x :: e :: y :: back := by
    calc plist.head :: (before ++ e :: after) ++ [plist.tail]
        = (plist.head :: before) ++ e :: (after ++ [plist.tail]) := by simp
      _ = front ++ x :: e :: y :: back := by rw [left, right]; simp
  rw [shape] at holds outside
  obtain ⟨edge, apart⟩ := neighbours front (y :: back) holds
  obtain ⟨edge', -⟩ := neighbours (front ++ [x]) back (by simpa using holds)
  rw [listRemove_eq_join (by rw [edge.2]; exact apart), edge.2, edge'.1]
  have apartX := outside x (by simp)
  have apartY := outside y (by simp)
  exact ⟨next_join_apart s apartX (.inr apartY), prev_join_apart s (.inr apartX) apartY⟩

/-- A list has one sequence of elements. -/
theorem Holds.unique {s : σ} {plist : KList ν} {nodes others : List ν}
    (irreflexive : ∀ x, ¬ Apart σ x x) (holds : Holds s plist nodes)
    (holds' : Holds s plist others) : nodes = others := by
  obtain ⟨chain, whole, -⟩ := holds
  obtain ⟨chain', whole', -⟩ := holds'
  obtain ⟨-, apart⟩ := List.pairwise_cons.mp whole
  obtain ⟨-, apart'⟩ := List.pairwise_cons.mp whole'
  clear whole whole'
  have ends (rest : List ν) (x : ν) (distinct : (x :: rest ++ [plist.tail]).Pairwise (Apart σ)) :
      x ≠ plist.tail := by
    rintro rfl
    exact irreflexive _ ((List.pairwise_cons.mp distinct).1 plist.tail (by simp))
  generalize plist.head = start at chain chain'
  induction nodes generalizing others start with
  | nil =>
    cases others with
    | nil => rfl
    | cons y rest =>
      have first : next s start = plist.tail := (List.isChain_cons_cons.mp chain).1.1
      have first' : next s start = y := (List.isChain_cons_cons.mp chain').1.1
      exact absurd (first'.symm.trans first) (ends rest y apart')
  | cons x later ih =>
    have first : next s start = x := (List.isChain_cons_cons.mp chain).1.1
    cases others with
    | nil =>
      have first' : next s start = plist.tail := (List.isChain_cons_cons.mp chain').1.1
      exact absurd (first.symm.trans first') (ends later x apart)
    | cons y rest =>
      have first' : next s start = y := (List.isChain_cons_cons.mp chain').1.1
      have same : x = y := first.symm.trans first'
      subst same
      congr 1
      exact ih (List.pairwise_cons.mp apart).2 (List.pairwise_cons.mp apart').2 x
        (List.isChain_cons_cons.mp chain).2 (List.isChain_cons_cons.mp chain').2

end KOS.KernelList
