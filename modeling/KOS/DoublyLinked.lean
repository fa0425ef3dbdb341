import Mathlib

/-! Intrusive doubly linked lists over any store of link fields: typed nodes, or addresses
in a memory whose cells may overlap. A list is the sequence of its nodes, sentinels
included, and an edit is two link writes around it. Nothing here names a program. -/

namespace KOS.DoublyLinked

/-- The link fields of a store. `Apart` nodes share no cell; `Fits` values survive a write. -/
class NodeStore (σ : Type*) (ν : outParam Type*) where
  prev : σ → ν → ν
  next : σ → ν → ν
  setPrev : σ → ν → ν → σ
  setNext : σ → ν → ν → σ
  Apart : ν → ν → Prop
  Fits : ν → Prop
  apart_symm : ∀ {x y}, Apart x y → Apart y x
  next_setNext : ∀ s {x v}, Fits v → next (setNext s x v) x = v
  prev_setPrev : ∀ s {x v}, Fits v → prev (setPrev s x v) x = v
  next_setNext_apart : ∀ s v {x y}, Apart x y → next (setNext s x v) y = next s y
  prev_setPrev_apart : ∀ s v {x y}, Apart x y → prev (setPrev s x v) y = prev s y
  next_setPrev : ∀ s v {x y}, x = y ∨ Apart x y → next (setPrev s x v) y = next s y
  prev_setNext : ∀ s v {x y}, x = y ∨ Apart x y → prev (setNext s x v) y = prev s y

open NodeStore

variable {σ ν : Type*} [NodeStore σ ν]

/-- `y` follows `x`, read in both directions. -/
def Edge (s : σ) (x y : ν) : Prop := next s x = y ∧ prev s y = x

/-- The nodes are linked in this order and share no cells. -/
structure Threaded (s : σ) (nodes : List ν) : Prop where
  chain : nodes.IsChain (Edge s)
  apart : nodes.Pairwise (Apart σ)
  fits : ∀ x ∈ nodes, Fits σ x

theorem chain_congr {s t : σ} {nodes : List ν} (linked : nodes.IsChain (Edge s))
    (nexts : ∀ x ∈ nodes.dropLast, next t x = next s x)
    (prevs : ∀ y ∈ nodes.tail, prev t y = prev s y) : nodes.IsChain (Edge t) := by
  induction linked with
  | nil => exact .nil
  | singleton x => exact .singleton x
  | @cons_cons x y rest edge later ih =>
    have first : Edge t x y := by
      constructor
      · rw [nexts x (by simp), edge.1]
      · rw [prevs y (by simp), edge.2]
    apply List.IsChain.cons_cons first
    apply ih
    · intro z member
      exact nexts z (by simp only [List.dropLast_cons_cons, List.mem_cons]; exact .inr member)
    · intro z member
      exact prevs z (List.mem_cons_of_mem _ member)

theorem Threaded.congr {s t : σ} {nodes : List ν} (linked : Threaded s nodes)
    (nexts : ∀ x ∈ nodes.dropLast, next t x = next s x)
    (prevs : ∀ y ∈ nodes.tail, prev t y = prev s y) : Threaded t nodes :=
  ⟨chain_congr linked.chain nexts prevs, linked.apart, linked.fits⟩

/-- A store that agrees on every node of the list threads it too. -/
theorem Threaded.transport {s t : σ} {nodes : List ν} (linked : Threaded s nodes)
    (same : ∀ x ∈ nodes, next t x = next s x ∧ prev t x = prev s x) : Threaded t nodes :=
  linked.congr (fun x member => (same x (List.mem_of_mem_dropLast member)).1)
    (fun y member => (same y (List.mem_of_mem_tail member)).2)

/-- Points `x` and `y` at each other. -/
def join (s : σ) (x y : ν) : σ := setPrev (setNext s x y) y x

theorem next_join_apart (s : σ) {x y z : ν} (left : Apart σ x z) (right : y = z ∨ Apart σ y z) :
    next (join s x y) z = next s z := by
  rw [join, next_setPrev _ _ right, next_setNext_apart _ _ left]

theorem prev_join_apart (s : σ) {x y z : ν} (left : x = z ∨ Apart σ x z) (right : Apart σ y z) :
    prev (join s x y) z = prev s z := by
  rw [join, prev_setPrev_apart _ _ right, prev_setNext _ _ left]

theorem edge_join (s : σ) {x y : ν} (fitsLeft : Fits σ x) (fitsRight : Fits σ y)
    (apart : y = x ∨ Apart σ y x) : Edge (join s x y) x y := by
  constructor
  · rw [join, next_setPrev _ _ apart, next_setNext _ fitsRight]
  · rw [join, prev_setPrev _ fitsLeft]

/-- Joining the ends of two lists leaves the inner links of both alone. -/
theorem join_threaded {s : σ} {before after : List ν} {x y : ν}
    (left : (before ++ [x]).IsChain (Edge s)) (right : (y :: after).IsChain (Edge s))
    (apart : (before ++ x :: y :: after).Pairwise (Apart σ))
    (fits : ∀ z ∈ before ++ x :: y :: after, Fits σ z) :
    Threaded (join s x y) (before ++ x :: y :: after) := by
  obtain ⟨-, ends, across⟩ := List.pairwise_append.mp apart
  obtain ⟨afterX, ends⟩ := List.pairwise_cons.mp ends
  obtain ⟨afterY, -⟩ := List.pairwise_cons.mp ends
  have split : (before ++ x :: y :: after).IsChain (Edge (join s x y)) := by
    rw [List.isChain_append_cons_cons]
    refine ⟨chain_congr left ?_ ?_, ?_, chain_congr right ?_ ?_⟩
    · intro z member
      rw [List.dropLast_concat] at member
      exact next_join_apart s (apart_symm (across z member x (by simp)))
        (.inr (apart_symm (across z member y (by simp))))
    · intro z member
      have among := List.mem_of_mem_tail member
      rw [List.mem_append, List.mem_singleton] at among
      rcases among with inside | rfl
      · exact prev_join_apart s (.inr (apart_symm (across z inside x (by simp))))
          (apart_symm (across z inside y (by simp)))
      · exact prev_join_apart s (.inl rfl) (apart_symm (afterX y (by simp)))
    · exact edge_join s (fits x (by simp)) (fits y (by simp))
        (.inr (apart_symm (afterX y (by simp))))
    · intro z member
      have among := List.mem_of_mem_dropLast member
      rw [List.mem_cons] at among
      rcases among with rfl | inside
      · exact next_join_apart s (afterX z (by simp)) (.inl rfl)
      · exact next_join_apart s (afterX z (by simp [inside])) (.inr (afterY z inside))
    · intro z member
      exact prev_join_apart s (.inr (afterX z (by simp [show z ∈ after from member]))) (afterY z member)
  exact ⟨split, apart, fits⟩

theorem Threaded.part {s : σ} {nodes part : List ν} (linked : Threaded s nodes)
    (inside : part <:+: nodes) : Threaded s part :=
  ⟨ List.IsChain.infix linked.chain inside, linked.apart.sublist inside.sublist,
    fun x member => linked.fits x (inside.subset member)⟩

/-- Joining two nodes leaves every list apart from both of them alone. -/
theorem Threaded.join_away {s : σ} {nodes : List ν} {x y : ν} (linked : Threaded s nodes)
    (left : ∀ z ∈ nodes, Apart σ x z) (right : ∀ z ∈ nodes, Apart σ y z) :
    Threaded (join s x y) nodes :=
  linked.transport fun z member =>
    ⟨next_join_apart s (left z member) (.inr (right z member)),
      prev_join_apart s (.inr (left z member)) (right z member)⟩

/-- Drops the nodes between `x` and `y`. -/
theorem Threaded.bypass {s : σ} {before after : List ν} {x y : ν} (between : List ν)
    (linked : Threaded s (before ++ x :: between ++ y :: after)) :
    Threaded (join s x y) (before ++ x :: y :: after) := by
  have kept : (before ++ x :: y :: after).Sublist (before ++ x :: between ++ y :: after) := by
    rw [List.append_assoc]
    apply List.Sublist.append_left
    exact List.Sublist.cons_cons x (List.sublist_append_right between (y :: after))
  apply join_threaded
  · apply List.IsChain.infix linked.chain
    exact ⟨[], between ++ y :: after, by simp⟩
  · apply List.IsChain.infix linked.chain
    exact ⟨before ++ x :: between, [], by simp⟩
  · exact linked.apart.sublist kept
  · intro z member
    exact linked.fits z (kept.subset member)

/-- Puts `e`, apart from every node of the list, between two neighbours. -/
theorem Threaded.between {s : σ} {before after : List ν} {x y e : ν}
    (linked : Threaded s (before ++ x :: y :: after))
    (fresh : ∀ z ∈ before ++ x :: y :: after, Apart σ e z) (fits : Fits σ e) :
    Threaded (join (join s x e) e y) (before ++ x :: e :: y :: after) := by
  have moved : (before ++ x :: e :: y :: after).Perm (e :: (before ++ x :: y :: after)) := by
    have middle := @List.perm_middle _ e (before ++ [x]) (y :: after)
    simpa only [List.append_assoc, List.singleton_append] using middle
  have apart : (before ++ x :: e :: y :: after).Pairwise (Apart σ) := by
    rw [moved.pairwise_iff (fun {_ _} => apart_symm), List.pairwise_cons]
    exact ⟨fresh, linked.apart⟩
  have allFit : ∀ z ∈ before ++ x :: e :: y :: after, Fits σ z := by
    intro z member
    rw [moved.mem_iff, List.mem_cons] at member
    rcases member with rfl | old
    · exact fits
    · exact linked.fits z old
  have start : before ++ [x, e] <:+: before ++ x :: e :: y :: after := ⟨[], y :: after, by simp⟩
  have first : Threaded (join s x e) (before ++ [x, e]) := by
    apply join_threaded
    · exact List.IsChain.infix linked.chain ⟨[], y :: after, by simp⟩
    · exact .singleton e
    · exact apart.sublist start.sublist
    · intro z member
      exact allFit z (start.subset member)
  have rest : Threaded (join s x e) (y :: after) := by
    have tail : y :: after <:+: before ++ x :: y :: after := ⟨before ++ [x], [], by simp⟩
    apply (linked.part tail).join_away
    · intro z member
      exact (List.pairwise_cons.mp (List.pairwise_append.mp linked.apart).2.1).1 z member
    · intro z member
      exact fresh z (tail.subset member)
  have shape : before ++ x :: e :: y :: after = (before ++ [x]) ++ e :: y :: after := by simp
  rw [shape] at apart allFit ⊢
  apply join_threaded
  · simpa using first.chain
  · exact rest.chain
  · exact apart
  · exact allFit

/-! Typed nodes, each with two fields of its own. -/

structure Fields (ν : Type*) where
  prev : ν → ν
  next : ν → ν

instance {ν : Type*} [DecidableEq ν] : NodeStore (Fields ν) ν where
  prev s := s.prev
  next s := s.next
  setPrev s x v := { s with prev := Function.update s.prev x v }
  setNext s x v := { s with next := Function.update s.next x v }
  Apart x y := x ≠ y
  Fits _ := True
  apart_symm different := different.symm
  next_setNext _ _ _ _ := Function.update_self ..
  prev_setPrev _ _ _ _ := Function.update_self ..
  next_setNext_apart _ _ _ _ different := Function.update_of_ne different.symm ..
  prev_setPrev_apart _ _ _ _ different := Function.update_of_ne different.symm ..
  next_setPrev _ _ _ _ _ := rfl
  prev_setNext _ _ _ _ _ := rfl

theorem Fields.not_apart_self {ν : Type*} [DecidableEq ν] (x : ν) : ¬ Apart (Fields ν) x x :=
  fun different => different rfl

end KOS.DoublyLinked
