import Mathlib

/-! Code that works on a shared object one access at a time, and histories in which one such piece of
code follows the other. Nothing here names a program. -/

namespace KOS.Serial

/-- What a piece of code keeps for itself says whether it is done and what its next access does. -/
structure Code (α ρ : Type*) where
  done : ρ → Bool
  act : ρ → α → Option (ρ × α)

variable {α β ρ τ : Type*} {code : Code α ρ} {r r' r'' : ρ} {a a' a'' b c : α} {log : List (τ × ρ)}

/-- The code has come this far. -/
inductive Part (code : Code α ρ) (r : ρ) (a : α) : ρ → α → Prop where
  | start : Part code r a r a
  | more {r' r'' : ρ} {a' a'' : α} (part : Part code r a r' a') (unfinished : code.done r' = false)
      (acted : code.act r' a' = some (r'', a'')) : Part code r a r'' a''

def Whole (code : Code α ρ) (r : ρ) (a b : α) : Prop := ∃ r', code.done r' = true ∧ Part code r a r' b

/-- One whole piece of code after the other, each with the name of who ran it. -/
inductive History (code : Code α ρ) (a : α) : List (τ × ρ) → α → Prop where
  | nil : History code a [] a
  | snoc {log : List (τ × ρ)} {b c : α} {t : τ} {r : ρ} (before : History code a log b) (whole : Whole code r b c) :
      History code a (log ++ [(t, r)]) c

/-! Code that passes the elements of a list to the object. -/

def writer (put : α → β → Option α) : Code α (List β) where
  done := List.isEmpty
  act
    | [], _ => none
    | x :: rest, a => (put a x).map fun b => (rest, b)

variable {put : α → β → Option α} {xs ys : List β}

theorem foldlM_append (a : α) (xs ys : List β) :
    (xs ++ ys).foldlM put a = (xs.foldlM put a).bind fun b => ys.foldlM put b := List.foldlM_append

theorem foldlM_snoc {x : β} (before : xs.foldlM put a = some b) (next : put b x = some c) :
    (xs ++ [x]).foldlM put a = some c := by
  rw [foldlM_append, before, Option.bind_some]
  show (put b x).bind some = some c
  rw [next, Option.bind_some]

/-- A part has passed a first part of the list. -/
theorem Part.written (part : Part (writer put) xs a ys b) : ∃ passed, xs = passed ++ ys ∧ passed.foldlM put a = some b := by
  induction part with
  | start => exact ⟨[], rfl, rfl⟩
  | @more rest rest' b b' part unfinished acted ih =>
    obtain ⟨passed, split, ran⟩ := ih
    cases rest with
    | nil => cases unfinished
    | cons x rest =>
      obtain ⟨c, next, same⟩ := Option.map_eq_some_iff.mp acted
      obtain ⟨rfl, rfl⟩ := Prod.mk.inj same
      refine ⟨passed ++ [x], ?_, foldlM_snoc ran next⟩
      rw [split, List.append_assoc]
      rfl

theorem Whole.written (whole : Whole (writer put) xs a b) : xs.foldlM put a = some b := by
  obtain ⟨rest, done, part⟩ := whole
  obtain ⟨passed, split, ran⟩ := part.written
  have nothing : rest = [] := List.isEmpty_iff.mp done
  rw [split, nothing, List.append_nil, ran]

/-- A serial history of writers has passed the lists one after the other. -/
theorem History.written {log : List (τ × List β)} (history : History (writer put) a log b) :
    (log.flatMap Prod.snd).foldlM put a = some b := by
  induction history with
  | nil => rfl
  | @snoc log b c t xs before whole ih =>
    rw [List.flatMap_append, foldlM_append, ih, Option.bind_some, List.flatMap_singleton]
    exact whole.written

end KOS.Serial
