import Mathlib

/-! Runs of free places among numbered ones: the first run of a length, and how many places are free.
Nothing here names a program. -/

namespace KOS.FirstFit

/-- `cnt` free places in a row, from `i` on. -/
structure Run (used : Nat → Bool) (total cnt i : Nat) : Prop where
  inside : i + cnt ≤ total
  free : ∀ j, i ≤ j → j < i + cnt → used j = false

structure First (used : Nat → Bool) (total cnt i : Nat) : Prop where
  run : Run used total cnt i
  least : ∀ i', Run used total cnt i' → i ≤ i'

def freeCount (used : Nat → Bool) (total : Nat) : Nat := (List.range total).countP fun j => !used j

variable {used used' : Nat → Bool} {total cnt i j : Nat}

theorem First.unique (first : First used total cnt i) (second : First used total cnt j) : i = j :=
  le_antisymm (first.least j second.run) (second.least i first.run)

theorem Run.exists_first (run : Run used total cnt i) : ∃ j, First used total cnt j := by
  classical
  have some : ∃ j, Run used total cnt j := ⟨i, run⟩
  exact ⟨Nat.find some, Nat.find_spec some, fun j run => Nat.find_min' some run⟩

/-- What a scan in ascending order knows at `idx`, with the last `freeCnt` places free. -/
structure Scanned (used : Nat → Bool) (cnt idx freeCnt : Nat) : Prop where
  short : freeCnt < cnt
  inside : freeCnt ≤ idx
  free : ∀ j, idx - freeCnt ≤ j → j < idx → used j = false
  blocked : ∀ i, i + freeCnt < idx → ∃ j, i ≤ j ∧ j < i + cnt ∧ used j = true

variable {idx freeCnt : Nat}

theorem Scanned.skip (scanned : Scanned used cnt idx freeCnt) (busy : used idx = true) :
    Scanned used cnt (idx + 1) 0 := by
  have short := scanned.short
  refine ⟨by omega, Nat.zero_le _, fun j low high => by omega, ?_⟩
  intro i before
  by_cases early : i + freeCnt < idx
  · exact scanned.blocked i early
  · exact ⟨idx, by omega, by omega, busy⟩

theorem Scanned.free_next (scanned : Scanned used cnt idx freeCnt) (clear : used idx = false) :
    ∀ j, idx + 1 - (freeCnt + 1) ≤ j → j < idx + 1 → used j = false := by
  intro j low high
  by_cases last : j = idx
  · rw [last]
    exact clear
  · exact scanned.free j (by omega) (by omega)

theorem Scanned.next (scanned : Scanned used cnt idx freeCnt) (clear : used idx = false) (more : freeCnt + 1 ≠ cnt) :
    Scanned used cnt (idx + 1) (freeCnt + 1) := by
  have short := scanned.short
  have inside := scanned.inside
  exact ⟨by omega, by omega, scanned.free_next clear, fun i before => scanned.blocked i (by omega)⟩

theorem Scanned.found (scanned : Scanned used cnt idx freeCnt) (clear : used idx = false) (full : freeCnt + 1 = cnt)
    (below : idx < total) : First used total cnt (idx + 1 - cnt) := by
  have inside := scanned.inside
  refine ⟨⟨by omega, ?_⟩, ?_⟩
  · intro j low high
    exact scanned.free_next clear j (by omega) (by omega)
  · intro i run
    by_contra early
    obtain ⟨j, low, high, busy⟩ := scanned.blocked i (by omega)
    exact Bool.false_ne_true ((run.free j low high).symm.trans busy)

theorem Scanned.none (scanned : Scanned used cnt total freeCnt) (i : Nat) : ¬Run used total cnt i := by
  intro run
  have short := scanned.short
  have inside := run.inside
  obtain ⟨j, low, high, busy⟩ := scanned.blocked i (by omega)
  exact Bool.false_ne_true ((run.free j low high).symm.trans busy)

/-! How many places are free. -/

theorem freeCount_pos : 0 < freeCount used total ↔ ∃ j, j < total ∧ used j = false := by
  unfold freeCount
  rw [List.countP_pos_iff]
  simp only [List.mem_range, Bool.not_eq_true']

theorem freeCount_congr (same : ∀ j, j < total → used' j = used j) : freeCount used' total = freeCount used total := by
  unfold freeCount
  apply List.countP_congr
  intro j member
  rw [same j (List.mem_range.mp member)]

theorem freeCount_mono (fewer : ∀ j, used j = false → used' j = false) : freeCount used total ≤ freeCount used' total := by
  unfold freeCount
  apply List.countP_mono_left
  intro j _ clear
  rw [Bool.not_eq_true'] at clear ⊢
  exact fewer j clear

/-- Taking a free place leaves one fewer. -/
theorem freeCount_take (inside : i < total) (clear : used i = false) (busy : used' i = true)
    (same : ∀ j, j ≠ i → used' j = used j) : freeCount used' total + 1 = freeCount used total := by
  induction total with
  | zero => omega
  | succ total ih =>
    unfold freeCount at ih ⊢
    rw [List.range_succ, List.countP_append, List.countP_append]
    by_cases last : i = total
    · have before : (List.range total).countP (fun j => !used' j) = (List.range total).countP fun j => !used j := by
        apply freeCount_congr
        intro j below
        exact same j (by omega)
      rw [before, ← last]
      simp [clear, busy]
    · rw [← ih (by omega)]
      simp only [List.countP_singleton, same total (Ne.symm last)]
      omega

end KOS.FirstFit
