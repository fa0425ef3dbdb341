import KOS.LinkMemory

/-! Any number of lists over one set of nodes, through any sequence of calls: each list stays the
sequence that the same operations make of it. -/

namespace KOS.ListHistory
open KOS.DoublyLinked KOS.KernelList NodeStore

section Walk

/-! What the loops over a list see. -/

variable {ν : Type*}

/-- The nodes met from `x` on along `f`, up to `stop`. -/
def follow [DecidableEq ν] (f : ν → ν) (stop : ν) : Nat → ν → Option (List ν)
  | 0, _ => none
  | fuel + 1, x => if x = stop then some [] else (follow f stop fuel (f x)).map (x :: ·)

inductive Path (f : ν → ν) (stop : ν) : ν → List ν → Prop
  | done : Path f stop stop []
  | cons {x : ν} {rest : List ν} (before : x ≠ stop) (later : Path f stop (f x) rest) : Path f stop x (x :: rest)

theorem path_of_chain {f : ν → ν} {stop start : ν} {nodes : List ν}
    (chain : (start :: nodes ++ [stop]).IsChain fun x y => f x = y) (inner : stop ∉ nodes) :
    Path f stop (f start) nodes := by
  induction nodes generalizing start with
  | nil =>
    have last : f start = stop := (List.isChain_cons_cons.mp chain).1
    rw [last]
    exact .done
  | cons x rest ih =>
    have first : f start = x := (List.isChain_cons_cons.mp chain).1
    rw [first]
    apply Path.cons
    · intro same
      exact inner (same ▸ List.mem_cons_self)
    · apply ih (List.isChain_cons_cons.mp chain).2
      intro member
      exact inner (List.mem_cons_of_mem x member)

theorem Path.follow [DecidableEq ν] {f : ν → ν} {stop x : ν} {nodes : List ν} (path : Path f stop x nodes) {fuel : Nat}
    (enough : nodes.length < fuel) : ListHistory.follow f stop fuel x = some nodes := by
  induction path generalizing fuel with
  | done =>
    cases fuel with
    | zero => omega
    | succ fuel => exact if_pos rfl
  | @cons x rest before later ih =>
    cases fuel with
    | zero => omega
    | succ fuel =>
      have shorter : rest.length < fuel := Nat.lt_of_succ_lt_succ enough
      rw [ListHistory.follow, if_neg before, ih shorter, Option.map_some]

end Walk

section Loops

variable {σ ν : Type*} [NodeStore σ ν] [DecidableEq ν] {s : σ} {plist : KList ν} {x : ν} {nodes : List ν} {fuel : Nat}

theorem listLenLoop_path (path : Path (next s) plist.tail x nodes) (length : Nat) (enough : nodes.length < fuel) :
    listLenLoop s plist fuel x (length % 2 ^ 32) = some ((length + nodes.length) % 2 ^ 32) := by
  induction path generalizing fuel length with
  | done =>
    cases fuel with
    | zero => omega
    | succ fuel => exact if_pos rfl
  | @cons x rest before later ih =>
    cases fuel with
    | zero => omega
    | succ fuel =>
      have counted : (length % 2 ^ 32 + 1) % 2 ^ 32 = (length + 1) % 2 ^ 32 := Nat.mod_add_mod length (2 ^ 32) 1
      rw [listLenLoop, if_neg before, counted, ih (length + 1) (Nat.lt_of_succ_lt_succ enough), List.length_cons,
        Nat.add_assoc, Nat.add_comm 1 rest.length]

theorem listFindLoop_path (path : Path (next s) plist.tail x nodes) (elem : ν) (enough : nodes.length < fuel) :
    listFindLoop s plist elem fuel x = some (decide (elem ∈ nodes)) := by
  induction path generalizing fuel with
  | done =>
    cases fuel with
    | zero => omega
    | succ fuel => simp [listFindLoop]
  | @cons x rest before later ih =>
    cases fuel with
    | zero => omega
    | succ fuel =>
      rw [listFindLoop, if_neg before]
      by_cases here : x = elem
      · simp [here]
      · rw [if_neg here, ih (Nat.lt_of_succ_lt_succ enough)]
        simp [Ne.symm here]

theorem listTraversalLoop_path (path : Path (next s) plist.tail x nodes) (func : ν → Int → Bool) (arg : Int)
    (enough : nodes.length < fuel) :
    listTraversalLoop s plist func arg fuel x = some (nodes.find? fun elem => func elem arg) := by
  induction path generalizing fuel with
  | done =>
    cases fuel with
    | zero => omega
    | succ fuel => simp [listTraversalLoop]
  | @cons x rest before later ih =>
    cases fuel with
    | zero => omega
    | succ fuel =>
      rw [listTraversalLoop, if_neg before]
      cases here : func x arg with
      | true => simp [here]
      | false =>
        rw [ih (Nat.lt_of_succ_lt_succ enough)]
        simp [here]

/-- Both walks over a list and every reading function of `list.c` agree with the sequence. -/
structure Reads (s : σ) (plist : KList ν) (nodes : List ν) : Prop where
  forward : ∀ fuel > nodes.length, follow (next s) plist.tail fuel (next s plist.head) = some nodes
  backward : ∀ fuel > nodes.length, follow (prev s) plist.head fuel (prev s plist.tail) = some nodes.reverse
  len : ∀ fuel > nodes.length, listLen fuel s plist = some nodes.length
  find : ∀ fuel > nodes.length, ∀ elem, listFind fuel s plist elem = some (decide (elem ∈ nodes))
  traversal : ∀ fuel > nodes.length, ∀ func arg,
    listTraversal fuel s plist func arg = some (nodes.find? fun elem => func elem arg)
  empty : listEmpty s plist = decide (nodes = [])
  pop : (listPop s plist).1 = nodes.head?

section Holds

variable (holds : Holds s plist nodes) (irreflexive : ∀ x, ¬ Apart σ x x)
include holds irreflexive

omit [DecidableEq ν] in
theorem holds_inner : plist.head ∉ nodes ∧ plist.tail ∉ nodes := by
  have apart := holds.apart
  rw [List.cons_append, List.pairwise_cons, List.pairwise_append] at apart
  constructor
  · intro member
    exact irreflexive _ (apart.1 plist.head (List.mem_append_left _ member))
  · intro member
    exact irreflexive _ (apart.2.2.2 plist.tail member plist.tail List.mem_cons_self)

omit [DecidableEq ν] in
theorem holds_forward : Path (next s) plist.tail (next s plist.head) nodes := by
  apply path_of_chain
  · exact holds.chain.imp fun _ _ edge => edge.1
  · exact (holds_inner holds irreflexive).2

omit [DecidableEq ν] in
theorem holds_backward : Path (prev s) plist.head (prev s plist.tail) nodes.reverse := by
  apply path_of_chain
  · have chain := holds.chain.imp fun _ _ edge => edge.2
    rw [← List.isChain_reverse] at chain
    simpa using chain
  · rw [List.mem_reverse]
    exact (holds_inner holds irreflexive).1

theorem holds_reads (small : nodes.length < 2 ^ 32) : Reads s plist nodes := by
  have path := holds_forward holds irreflexive
  have empty : listEmpty s plist = decide (nodes = []) := by
    rw [Bool.eq_iff_iff, listEmpty_iff holds irreflexive, decide_eq_true_iff]
  constructor
  · intro fuel enough
    exact path.follow enough
  · intro fuel enough
    apply (holds_backward holds irreflexive).follow
    rw [List.length_reverse]
    exact enough
  · intro fuel enough
    have counted := listLenLoop_path path 0 enough
    rw [Nat.zero_add, Nat.mod_eq_of_lt small] at counted
    exact counted
  · intro fuel enough elem
    exact listFindLoop_path path elem enough
  · intro fuel enough func arg
    rw [listTraversal, empty]
    cases nodes with
    | nil => simp
    | cons x rest =>
      rw [if_neg (by simp)]
      exact listTraversalLoop_path path func arg enough
  · exact empty
  · cases nodes with
    | nil => rw [listPop, if_pos (by rw [empty]; simp), List.head?_nil]
    | cons x rest => rw [(listPop_holds holds irreflexive).1, List.head?_cons]

end Holds

end Loops

section History

/-- The calls that change a list. -/
inductive Action (ν : Type*)
  | init
  | append (elem : ν)
  | push (elem : ν)
  | insert (prevElem elem : ν)
  | remove (elem : ν)
  | pop

/-- `null` is the value of NULL. -/
def act {σ ν : Type*} [NodeStore σ ν] [DecidableEq ν] (null : ν) (s : σ) (plist : KList ν) : Action ν → σ
  | .init => listInit null s plist
  | .append elem => listAppend s plist elem
  | .push elem => listPush s plist elem
  | .insert prevElem elem => listInsert s prevElem elem
  | .remove elem => listRemove s elem
  | .pop => (listPop s plist).2

section Sequences

variable {ν ι : Type*} [DecidableEq ν] [DecidableEq ι]

/-- Before the first `p`, or last when there is none. -/
def insertBefore (p e : ν) : List ν → List ν
  | [] => [e]
  | x :: rest => if x = p then e :: x :: rest else x :: insertBefore p e rest

theorem insertBefore_split {p tail : ν} (e : ν) {nodes : List ν} (inner : tail ∉ nodes) (place : p ∈ nodes ∨ p = tail) :
    ∃ before after rest, nodes = before ++ after ∧ after ++ [tail] = p :: rest ∧
      insertBefore p e nodes = before ++ e :: after := by
  induction nodes with
  | nil =>
    have last : p = tail := place.resolve_left List.not_mem_nil
    exact ⟨[], [], [], rfl, by rw [last, List.nil_append], rfl⟩
  | cons x later ih =>
    by_cases here : x = p
    · exact ⟨[], x :: later, later ++ [tail], rfl, by rw [here, List.cons_append], if_pos here⟩
    · have place' : p ∈ later ∨ p = tail := by
        apply place.imp_left
        intro member
        exact (List.mem_cons.mp member).resolve_left (Ne.symm here)
      have inner' : tail ∉ later := fun member => inner (List.mem_cons_of_mem x member)
      obtain ⟨before, after, rest, split, next, inserted⟩ := ih inner' place'
      refine ⟨x :: before, after, rest, ?_, next, ?_⟩
      · rw [split, List.cons_append]
      · rw [insertBefore, if_neg here, inserted, List.cons_append]

/-- What the calls mean for a sequence. -/
def Action.apply : Action ν → List ν → List ν
  | .init, _ => []
  | .append elem, nodes => nodes ++ [elem]
  | .push elem, nodes => elem :: nodes
  | .insert prevElem elem, nodes => insertBefore prevElem elem nodes
  | .remove elem, nodes => nodes.erase elem
  | .pop, nodes => nodes.tail

/-- The element that the call links. -/
def Action.subjects : Action ν → List ν
  | .append elem | .push elem | .insert _ elem => [elem]
  | .init | .remove _ | .pop => []

/-- The sequences of the lists that `list_init` has been called on. -/
abbrev Contents (ν ι : Type*) := ι → Option (List ν)

def Contents.after (c : Contents ν ι) (i : ι) (a : Action ν) : Contents ν ι :=
  Function.update c i (some (a.apply ((c i).getD [])))

/-- Each call comes with the list it is about; `list_insert` and `list_remove` find it themselves. -/
def contents (c : Contents ν ι) : List (ι × Action ν) → Contents ν ι
  | [] => c
  | (i, a) :: history => contents (c.after i a) history

end Sequences

variable {σ ν ι : Type*} [NodeStore σ ν] [DecidableEq ν] [DecidableEq ι]

/-- Lists and elements that share no memory. -/
structure Arena (σ : Type*) {ν : Type*} (ι : Type*) [NodeStore σ ν] where
  lists : ι → KList ν
  elems : Set ν
  ends : ∀ i, Apart σ (lists i).head (lists i).tail
  others : ∀ i j, i ≠ j → ∀ x ∈ [(lists i).head, (lists i).tail], ∀ y ∈ [(lists j).head, (lists j).tail], Apart σ x y
  inner : ∀ e ∈ elems, ∀ i, ∀ x ∈ [(lists i).head, (lists i).tail], Apart σ e x
  apart : elems.Pairwise (Apart σ)
  fitsEnds : ∀ i, ∀ x ∈ [(lists i).head, (lists i).tail], Fits σ x
  fits : ∀ e ∈ elems, Fits σ e

variable (arena : Arena σ ι) (null : ν)

def exec (s : σ) : List (ι × Action ν) → σ
  | [] => s
  | (i, a) :: history => exec (act null s (arena.lists i) a) history

def Contents.Unlinked (c : Contents ν ι) (e : ν) : Prop := ∀ i, e ∉ (c i).getD []

/-- The callers' side: only unlinked elements go in, only linked ones come out. -/
def Permitted (c : Contents ν ι) (i : ι) : Action ν → Prop
  | .init => True
  | .append elem | .push elem => (∃ nodes, c i = some nodes) ∧ elem ∈ arena.elems ∧ c.Unlinked elem
  | .insert prevElem elem => (∃ nodes, c i = some nodes ∧ (prevElem ∈ nodes ∨ prevElem = (arena.lists i).tail)) ∧
      elem ∈ arena.elems ∧ c.Unlinked elem
  | .remove elem => ∃ nodes, c i = some nodes ∧ elem ∈ nodes
  | .pop => ∃ nodes, c i = some nodes

def Legal (c : Contents ν ι) : List (ι × Action ν) → Prop
  | [] => True
  | (i, a) :: history => Permitted arena c i a ∧ Legal (c.after i a) history

/-- The lists hold their sequences, of elements of the arena, and share none. -/
structure Linked (c : Contents ν ι) (s : σ) : Prop where
  holds : ∀ i nodes, c i = some nodes → Holds s (arena.lists i) nodes
  inside : ∀ i nodes, c i = some nodes → ∀ e ∈ nodes, e ∈ arena.elems
  single : ∀ i j nodes others, i ≠ j → c i = some nodes → c j = some others → ∀ e ∈ nodes, e ∉ others

variable {arena null} {c : Contents ν ι} {s : σ} {i : ι} {a : Action ν}

omit [DecidableEq ν] in
theorem mem_whole {plist : KList ν} {nodes : List ν} {x : ν} :
    x ∈ plist.head :: nodes ++ [plist.tail] ↔ x ∈ [plist.head, plist.tail] ∨ x ∈ nodes := by
  simp only [List.cons_append, List.mem_cons, List.mem_append, List.not_mem_nil, or_false]
  tauto

omit [DecidableEq ν] [DecidableEq ι] in
theorem Contents.Unlinked.not_mem {e : ν} (unlinked : c.Unlinked e) {nodes : List ν} (here : c i = some nodes) :
    e ∉ nodes := by
  have outside := unlinked i
  rw [here] at outside
  exact outside

omit [DecidableEq ν] [DecidableEq ι] in
/-- An unlinked element shares nothing with a list. -/
theorem Linked.fresh (linked : Linked arena c s) {nodes : List ν} (here : c i = some nodes) {e : ν}
    (inside : e ∈ arena.elems) (unlinked : c.Unlinked e) :
    ∀ z ∈ (arena.lists i).head :: nodes ++ [(arena.lists i).tail], Apart σ e z := by
  intro z member
  rcases mem_whole.mp member with sentinel | element
  · exact arena.inner e inside i z sentinel
  · apply arena.apart inside (linked.inside i nodes here z element)
    rintro rfl
    exact unlinked.not_mem here element

omit [DecidableEq ν] [DecidableEq ι] in
/-- Two lists share nothing. -/
theorem Linked.across (linked : Linked arena c s) {j : ι} {nodes others : List ν} (different : i ≠ j)
    (inside : ∀ e ∈ nodes, e ∈ arena.elems) (there : c j = some others) (apart : ∀ e ∈ nodes, e ∉ others) {x z : ν}
    (left : x ∈ (arena.lists i).head :: nodes ++ [(arena.lists i).tail])
    (right : z ∈ (arena.lists j).head :: others ++ [(arena.lists j).tail]) : Apart σ x z := by
  rcases mem_whole.mp left with sentinel | element
  · rcases mem_whole.mp right with sentinel' | element'
    · exact arena.others i j different x sentinel z sentinel'
    · exact apart_symm (arena.inner z (linked.inside j others there z element') i x sentinel)
  · rcases mem_whole.mp right with sentinel' | element'
    · exact arena.inner x (inside x element) j z sentinel'
    · apply arena.apart (inside x element) (linked.inside j others there z element')
      rintro rfl
      exact apart x element element'

section Step

variable (irreflexive : ∀ x, ¬ Apart σ x x) (linked : Linked arena c s) (permitted : Permitted arena c i a)
include irreflexive linked permitted

omit [DecidableEq ι] in
/-- One call makes the operation on the sequence. -/
theorem act_holds : Holds (act null s (arena.lists i) a) (arena.lists i) (a.apply ((c i).getD [])) := by
  cases a with
  | init =>
    apply listInit_holds null s (arena.ends i)
    · exact arena.fitsEnds i _ (by simp)
    · exact arena.fitsEnds i _ (by simp)
  | append e =>
    obtain ⟨⟨nodes, here⟩, inside, unlinked⟩ := permitted
    rw [here]
    exact listAppend_holds (linked.holds i nodes here) (arena.fits e inside) (linked.fresh here inside unlinked)
  | push e =>
    obtain ⟨⟨nodes, here⟩, inside, unlinked⟩ := permitted
    rw [here]
    exact listPush_holds (linked.holds i nodes here) (arena.fits e inside) (linked.fresh here inside unlinked)
  | insert p e =>
    obtain ⟨⟨nodes, here, place⟩, inside, unlinked⟩ := permitted
    have holds := linked.holds i nodes here
    have fresh := linked.fresh here inside unlinked
    obtain ⟨before, after, rest, rfl, next, inserted⟩ := insertBefore_split e (holds_inner holds irreflexive).2 place
    rw [here, Action.apply, Option.getD_some, inserted]
    exact listInsert_holds holds next (arena.fits e inside) fresh
  | remove e =>
    obtain ⟨nodes, here, member⟩ := permitted
    have holds := linked.holds i nodes here
    obtain ⟨before, after, -, rfl, erased⟩ := List.exists_erase_eq member
    rw [here, Action.apply, Option.getD_some, erased]
    exact listRemove_holds holds
  | pop =>
    obtain ⟨nodes, here⟩ := permitted
    have holds := linked.holds i nodes here
    rw [here]
    cases nodes with
    | nil =>
      have empty := (listEmpty_iff holds irreflexive).mpr rfl
      rw [act, listPop, if_pos empty]
      exact holds
    | cons first rest =>
      obtain ⟨popped, left⟩ := listPop_holds holds irreflexive
      rw [act, popped]
      exact left

omit [DecidableEq ι] in
/-- One call leaves every node outside the list alone. -/
theorem act_away {z : ν} (outside : ∀ x ∈ a.subjects ++ ((arena.lists i).head :: (c i).getD [] ++ [(arena.lists i).tail]),
      Apart σ x z) :
    next (act null s (arena.lists i) a) z = next s z ∧ prev (act null s (arena.lists i) a) z = prev s z := by
  have members : ∀ x ∈ (arena.lists i).head :: (c i).getD [] ++ [(arena.lists i).tail], Apart σ x z :=
    fun x member => outside x (List.mem_append_right _ member)
  cases a with
  | init => exact listInit_away null s (members _ (by simp)) (members _ (by simp))
  | append e =>
    obtain ⟨⟨nodes, here⟩, -⟩ := permitted
    rw [here] at members
    exact listAppend_away (linked.holds i nodes here) (outside e (by simp [Action.subjects])) members
  | push e =>
    obtain ⟨⟨nodes, here⟩, -⟩ := permitted
    rw [here] at members
    exact listPush_away (linked.holds i nodes here) (outside e (by simp [Action.subjects])) members
  | insert p e =>
    obtain ⟨⟨nodes, here, place⟩, -⟩ := permitted
    have holds := linked.holds i nodes here
    rw [here] at members
    obtain ⟨before, after, rest, rfl, next, -⟩ := insertBefore_split e (holds_inner holds irreflexive).2 place
    exact listInsert_outside holds next (outside e (by simp [Action.subjects])) members
  | remove e =>
    obtain ⟨nodes, here, member⟩ := permitted
    have holds := linked.holds i nodes here
    rw [here] at members
    obtain ⟨before, after, -, rfl, -⟩ := List.exists_erase_eq member
    exact listRemove_away holds members
  | pop =>
    obtain ⟨nodes, here⟩ := permitted
    have holds := linked.holds i nodes here
    rw [here] at members
    cases nodes with
    | nil =>
      have empty := (listEmpty_iff holds irreflexive).mpr rfl
      rw [act, listPop, if_pos empty]
      exact ⟨rfl, rfl⟩
    | cons first rest =>
      rw [act, (listPop_holds holds irreflexive).1]
      have front : Holds s (arena.lists i) ([] ++ first :: rest) := holds
      exact listRemove_away front members

end Step

theorem mem_insertBefore {p e x : ν} {nodes : List ν} (member : x ∈ insertBefore p e nodes) : x ∈ nodes ∨ x = e := by
  induction nodes with
  | nil => exact .inr (List.mem_singleton.mp member)
  | cons y rest ih =>
    by_cases here : y = p
    · rw [insertBefore, if_pos here] at member
      exact (List.mem_cons.mp member).symm
    · rw [insertBefore, if_neg here] at member
      rcases List.mem_cons.mp member with first | later
      · exact .inl (first ▸ List.mem_cons_self)
      · exact (ih later).imp_left (List.mem_cons_of_mem y)

/-- A call adds no element but its subject. -/
theorem mem_apply {x : ν} {nodes : List ν} (member : x ∈ a.apply nodes) : x ∈ nodes ∨ x ∈ a.subjects := by
  cases a with
  | init => exact absurd member List.not_mem_nil
  | append e => simpa [Action.apply, Action.subjects] using member
  | push e => simpa [Action.apply, Action.subjects, or_comm] using member
  | insert p e => simpa [Action.subjects] using mem_insertBefore member
  | remove e => exact .inl (List.mem_of_mem_erase member)
  | pop => exact .inl (List.mem_of_mem_tail member)

omit [DecidableEq ν] [DecidableEq ι] in
theorem Permitted.subject (permitted : Permitted arena c i a) {e : ν} (subject : e ∈ a.subjects) :
    e ∈ arena.elems ∧ c.Unlinked e := by
  cases a with
  | init | remove _ | pop => exact absurd subject List.not_mem_nil
  | append _ | push _ | insert _ _ =>
    obtain rfl := List.mem_singleton.mp subject
    exact permitted.2

omit [DecidableEq ι] in
theorem Linked.members (linked : Linked arena c s) (permitted : Permitted arena c i a) {e : ν}
    (member : e ∈ a.apply ((c i).getD [])) :
    e ∈ arena.elems ∧ ∀ j others, i ≠ j → c j = some others → e ∉ others := by
  rcases mem_apply member with old | new
  · cases here : c i with
    | none =>
      rw [here] at old
      exact absurd old List.not_mem_nil
    | some nodes =>
      rw [here] at old
      exact ⟨linked.inside i nodes here e old, fun j others different there =>
        linked.single i j nodes others different here there e old⟩
  · obtain ⟨inside, unlinked⟩ := permitted.subject new
    exact ⟨inside, fun j others _ there => unlinked.not_mem there⟩

section Run

variable (irreflexive : ∀ x, ¬ Apart σ x x) (linked : Linked arena c s)
include irreflexive linked

omit [DecidableEq ι] in
/-- A call on one list leaves the nodes of every other list alone. -/
theorem Linked.untouched (permitted : Permitted arena c i a) {j : ι} {others : List ν} (different : i ≠ j)
    (there : c j = some others) :
    ∀ z ∈ (arena.lists j).head :: others ++ [(arena.lists j).tail],
      next (act null s (arena.lists i) a) z = next s z ∧ prev (act null s (arena.lists i) a) z = prev s z := by
  intro z member
  apply act_away irreflexive linked permitted
  intro x touched
  rcases List.mem_append.mp touched with subject | whole
  · obtain ⟨inside, unlinked⟩ := permitted.subject subject
    exact linked.fresh there inside unlinked z member
  · cases here : c i with
    | none =>
      rw [here] at whole
      apply linked.across different (fun e none => absurd none List.not_mem_nil) there
        (fun e none => absurd none List.not_mem_nil) whole member
    | some nodes =>
      rw [here] at whole
      exact linked.across different (linked.inside i nodes here) there (linked.single i j nodes others different here there)
        whole member

theorem Linked.step (permitted : Permitted arena c i a) :
    Linked arena (c.after i a) (act null s (arena.lists i) a) := by
  have changed : c.after i a i = some (a.apply ((c i).getD [])) := Function.update_self ..
  have kept : ∀ j, i ≠ j → c.after i a j = c j := fun j different => Function.update_of_ne different.symm ..
  constructor
  · intro j nodes there
    by_cases same : i = j
    · subst same
      rw [changed] at there
      obtain rfl := Option.some.inj there
      exact act_holds irreflexive linked permitted
    · rw [kept j same] at there
      exact Threaded.transport (linked.holds j nodes there) (linked.untouched irreflexive permitted same there)
  · intro j nodes there e member
    by_cases same : i = j
    · subst same
      rw [changed] at there
      obtain rfl := Option.some.inj there
      exact (linked.members permitted member).1
    · rw [kept j same] at there
      exact linked.inside j nodes there e member
  · intro j k nodes others different there other e member
    by_cases same : i = j
    · subst same
      rw [changed] at there
      rw [kept k different] at other
      obtain rfl := Option.some.inj there
      exact (linked.members permitted member).2 k others different other
    · rw [kept j same] at there
      by_cases same' : i = k
      · subst same'
        rw [changed] at other
        obtain rfl := Option.some.inj other
        intro member'
        exact (linked.members permitted member').2 j nodes same there member
      · rw [kept k same'] at other
        exact linked.single j k nodes others different there other e member

theorem Linked.run {history : List (ι × Action ν)} (legal : Legal arena c history) :
    Linked arena (contents c history) (exec arena null s history) := by
  induction history generalizing c s with
  | nil => exact linked
  | cons call rest ih =>
    obtain ⟨i, a⟩ := call
    exact ih (linked.step irreflexive legal.1) legal.2

end Run

omit [DecidableEq ν] [DecidableEq ι] in
theorem linked_start (s : σ) : Linked arena (fun _ => none) s := by
  constructor
  · intro i nodes here
    exact absurd here.symm (Option.some_ne_none nodes)
  · intro i nodes here
    exact absurd here.symm (Option.some_ne_none nodes)
  · intro i j nodes others different here
    exact absurd here.symm (Option.some_ne_none nodes)

theorem legal_append {c : Contents ν ι} {before after : List (ι × Action ν)} (legal : Legal arena c (before ++ after)) :
    Legal arena c before ∧ Legal arena (contents c before) after := by
  induction before generalizing c with
  | nil => exact ⟨trivial, legal⟩
  | cons call rest ih =>
    obtain ⟨i, a⟩ := call
    obtain ⟨first, later⟩ := ih legal.2
    exact ⟨⟨legal.1, first⟩, later⟩

omit [DecidableEq ι] in
theorem exec_append (s : σ) (before after : List (ι × Action ν)) :
    exec arena null s (before ++ after) = exec arena null (exec arena null s before) after := by
  induction before generalizing s with
  | nil => rfl
  | cons call rest ih =>
    obtain ⟨i, a⟩ := call
    exact ih _

end History

section Bytes

/-! In a byte memory, where an element is two words. -/

open KOS.ByteMemory KOS.LinkMemory

/-- Disjoint nodes are fewer than the words that count them. -/
theorem length_lt {m : Memory} {plist : KList Nat} {nodes : List Nat} (holds : Holds m plist nodes) :
    nodes.length < 2 ^ 32 := by
  have distinct : ((plist.head :: nodes ++ [plist.tail]).map (· % 2 ^ 32)).Nodup := by
    rw [List.Nodup, List.pairwise_map]
    apply holds.apart.imp
    intro x y apart same
    exact apart 0 (by decide) 0 (by decide) same
  have below : (plist.head :: nodes ++ [plist.tail]).map (· % 2 ^ 32) ⊆ List.range (2 ^ 32) := by
    intro y member
    obtain ⟨x, -, rfl⟩ := List.mem_map.mp member
    exact List.mem_range.mpr (Nat.mod_lt x (by decide))
  have counted := (distinct.subperm below).length_le
  rw [List.length_map, List.length_range, List.length_append, List.length_cons, List.length_singleton] at counted
  omega

variable {ι : Type*} [DecidableEq ι]

/-- After every legal sequence of calls, from any memory, every list reads as the sequence that the
same operations make, and the last call touched no node of another list. -/
theorem list_history_refines (arena : Arena Memory ι) (m : Memory) (history : List (ι × Action Nat))
    (legal : Legal arena (fun _ => none) history) :
    (∀ i nodes, contents (fun _ => none) history i = some nodes →
      Reads (exec arena 0 m history) (arena.lists i) nodes) ∧
    ∀ before i a, history = before ++ [(i, a)] → ∀ j others, i ≠ j → contents (fun _ => none) before j = some others →
      ∀ x ∈ (arena.lists j).head :: others ++ [(arena.lists j).tail],
        next (exec arena 0 m history) x = next (exec arena 0 m before) x ∧
          prev (exec arena 0 m history) x = prev (exec arena 0 m before) x := by
  constructor
  · intro i nodes here
    have linked : Linked arena _ (exec arena 0 m history) := (linked_start m).run not_apart_self legal
    have holds := linked.holds i nodes here
    exact holds_reads holds not_apart_self (length_lt holds)
  · rintro before i a rfl j others different there x member
    obtain ⟨earlier, last⟩ := legal_append legal
    have linked : Linked arena _ (exec arena 0 m before) := (linked_start m).run not_apart_self earlier
    rw [exec_append]
    exact linked.untouched not_apart_self last.1 different there x member

/-- Two lists of 16 bytes each and three elements, side by side. -/
def sample : Arena Memory (Fin 2) where
  lists i := ⟨0x1000 + 16 * i, 0x1008 + 16 * i⟩
  elems := {0x2000, 0x2008, 0x2010}
  ends i := by
    apply apart_of_gap <;> dsimp only <;> omega
  others i j different x left y right := by
    simp only [List.mem_cons, List.not_mem_nil, or_false] at left right
    apply apart_of_gap <;> omega
  inner e element i x sentinel := by
    simp only [List.mem_cons, List.not_mem_nil, or_false, Set.mem_insert_iff, Set.mem_singleton_iff] at element sentinel
    apply apart_of_gap <;> omega
  apart x left y right different := by
    simp only [Set.mem_insert_iff, Set.mem_singleton_iff] at left right
    apply apart_of_gap <;> omega
  fitsEnds i x sentinel := by
    simp only [List.mem_cons, List.not_mem_nil, or_false] at sentinel
    show x < 2 ^ 32
    omega
  fits e element := by
    simp only [Set.mem_insert_iff, Set.mem_singleton_iff] at element
    show e < 2 ^ 32
    omega

abbrev low : Fin 2 := ⟨0, Nat.zero_lt_two⟩

abbrev high : Fin 2 := ⟨1, Nat.one_lt_two⟩

def sampleHistory : List (Fin 2 × Action Nat) :=
  [(low, .init), (high, .init), (low, .append 0x2000), (low, .push 0x2008), (low, .insert 0x2000 0x2010),
    (low, .remove 0x2008), (high, .insert 0x1018 0x2008), (low, .pop)]

theorem sampleHistory_legal : Legal sample (fun _ => none) sampleHistory := by
  refine ⟨trivial, trivial, ⟨⟨[], rfl⟩, ?_, ?_⟩, ⟨⟨[0x2000], rfl⟩, ?_, ?_⟩, ⟨⟨[0x2008, 0x2000], rfl, ?_⟩, ?_, ?_⟩,
    ⟨[0x2008, 0x2010, 0x2000], rfl, ?_⟩, ⟨⟨[], rfl, ?_⟩, ?_, ?_⟩, ⟨[0x2010, 0x2000], rfl⟩, trivial⟩
  all_goals first
    | (unfold Contents.Unlinked; decide)
    | simp [sample]

theorem list_history_refines_sample :
    Reads (exec sample 0 (fun _ => 0) sampleHistory) (sample.lists low) [0x2000] ∧
      Reads (exec sample 0 (fun _ => 0) sampleHistory) (sample.lists high) [0x2008] := by
  have refines := (list_history_refines sample (fun _ => 0) sampleHistory sampleHistory_legal).1
  exact ⟨refines low [0x2000] rfl, refines high [0x2008] rfl⟩

end Bytes

end KOS.ListHistory
