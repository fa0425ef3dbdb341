import KOS.StringCopy
import KOS.StringSearch

/-! `memcmp` and `strcmp` of `string.c`. A plain `char` is signed, so both compare in the order of the signed
values of the bytes. -/

namespace KOS.StringCompare
open KOS.ByteMemory KOS.Stdio KOS.StringSearch KOS.StringCopy

def memcmp (m : Memory) : Nat → Nat → Nat → Int
  | _, _, 0 => 0
  | pS1, pS2, n + 1 =>
      if charInt (load m pS1) ≠ charInt (load m pS2) then
        if charInt (load m pS1) > charInt (load m pS2) then 1 else -1
      else memcmp m (pS1 + 1) (pS2 + 1) n

/-- `none` stands for a loop that the fuel did not finish. -/
def strcmp (m : Memory) : Nat → Nat → Nat → Option Int
  | 0, _, _ => none
  | fuel + 1, s1, s2 =>
      if charInt (load m s1) ≠ 0 ∧ charInt (load m s1) = charInt (load m s2) then strcmp m fuel (s1 + 1) (s2 + 1)
      else some (if charInt (load m s1) < charInt (load m s2) then -1
        else if charInt (load m s1) > charInt (load m s2) then 1 else 0)

/-! Three-way comparisons. -/

/-- The value that stands for an outcome. -/
def three : Ordering → Int
  | .lt => -1
  | .eq => 0
  | .gt => 1

theorem three_swap (o : Ordering) : three o.swap = -three o := by
  cases o <;> rfl

theorem three_le (o : Ordering) : three o ≤ 0 ↔ o.isLE := by
  cases o <;> decide

theorem three_zero (o : Ordering) : three o = 0 ↔ o = .eq := by
  cases o <;> decide

/-- Lists in dictionary order: the first difference decides. -/
theorem three_cons (x y : Int) (xs ys : List Int) :
    three (compare (x :: xs) (y :: ys)) =
      if x ≠ y then if x > y then 1 else -1 else three (compare xs ys) := by
  have first : compare (x :: xs) (y :: ys) = (compare x y).then (compare xs ys) := List.compareLex_cons_cons
  rw [first]
  by_cases same : x = y
  · rw [if_neg (not_not.mpr same), same, compare_eq_iff_eq.mpr rfl]
    rfl
  · rw [if_pos same]
    by_cases above : x > y
    · rw [if_pos above, compare_gt_iff_gt.mpr above]
      rfl
    · have below : x < y := by omega
      rw [if_neg above, compare_lt_iff_lt.mpr below]
      rfl

theorem charInt_injective {b c : UInt8} (same : charInt b = charInt c) : b = c := by
  calc b = b.toInt8.toUInt8 := (UInt8.toUInt8_toInt8 b).symm
    _ = c.toInt8.toUInt8 := congrArg Int8.toUInt8 (Int8.toInt.inj same)
    _ = c := UInt8.toUInt8_toInt8 c

variable {m : Memory} {a b c n fuel : Nat} {s t u : List UInt8}

/-! `memcmp`. -/

/-- The signed values of `n` bytes. -/
def chars (m : Memory) : Nat → Nat → List Int
  | _, 0 => []
  | a, n + 1 => charInt (load m a) :: chars m (a + 1) n

theorem chars_inj : chars m a n = chars m b n ↔ ∀ i < n, load m (a + i) = load m (b + i) := by
  induction n generalizing a b with
  | zero => simp [chars]
  | succ n ih =>
    rw [chars, chars, List.cons.injEq, ih]
    constructor
    · intro ⟨first, later⟩ i inside
      cases i with
      | zero => exact charInt_injective first
      | succ i =>
        have next := later i (Nat.lt_of_succ_lt_succ inside)
        rwa [Nat.add_assoc, Nat.add_assoc, Nat.add_comm 1] at next
    · intro all
      apply And.intro
      · exact congrArg charInt (all 0 (Nat.succ_pos n))
      · intro i inside
        rw [Nat.add_assoc, Nat.add_assoc, Nat.add_comm 1]
        exact all (i + 1) (Nat.succ_lt_succ inside)

theorem memcmp_compare (m : Memory) (a b n : Nat) : memcmp m a b n = three (compare (chars m a n) (chars m b n)) := by
  induction n generalizing a b with
  | zero => rfl
  | succ n ih => rw [memcmp, chars, chars, three_cons, ih]

/-- Over any `n` bytes `memcmp` is the three-way comparison of one total order, and 0 only for equal bytes. -/
theorem memcmp_order (m : Memory) (n : Nat) :
    (∀ a b, memcmp m b a n = -memcmp m a b n) ∧
      (∀ a b c, memcmp m a b n ≤ 0 → memcmp m b c n ≤ 0 → memcmp m a c n ≤ 0) ∧
      ∀ a b, memcmp m a b n = 0 ↔ ∀ i < n, load m (a + i) = load m (b + i) := by
  refine ⟨?_, ?_, ?_⟩
  · intro a b
    rw [memcmp_compare, memcmp_compare, ← three_swap, ← Std.OrientedCmp.eq_swap]
  · intro a b c first second
    rw [memcmp_compare, three_le] at *
    exact Std.TransCmp.isLE_trans first second
  · intro a b
    rw [memcmp_compare, three_zero, Std.LawfulEqCmp.compare_eq_iff_eq, chars_inj]

/-! `strcmp`. -/

/-- What `strcmp` compares: the signed bytes up to and with the NUL. -/
def signed (s : List UInt8) : List Int := s.map charInt ++ [0]

theorem signed_inj : signed s = signed t ↔ s = t := by
  unfold signed
  rw [List.append_left_inj]
  exact (List.map_injective_iff.mpr fun _ _ => charInt_injective).eq_iff

theorem strcmp_compare (first : CString ∅ m a s) (second : CString ∅ m b t) (enough : min s.length t.length < fuel) :
    strcmp m fuel a b = some (three (compare (signed s) (signed t))) := by
  induction s generalizing a b t fuel with
  | nil =>
    cases fuel with
    | zero => exact absurd enough (Nat.not_lt_zero _)
    | succ fuel =>
      have ends : charInt (load m a) = 0 := (charInt_zero _).mpr first.2
      rw [strcmp, if_neg (fun goes => goes.1 ends), ends]
      cases t with
      | nil =>
        rw [(charInt_zero _).mpr second.2]
        rfl
      | cons y ys =>
        obtain ⟨-, byte, nonzero, -⟩ := second
        have other : (0 : Int) ≠ charInt y := fun same => nonzero ((charInt_zero y).mp same.symm)
        rw [byte]
        show _ = some (three (compare (0 :: []) (charInt y :: signed ys)))
        rw [three_cons, if_pos other]
        split_ifs <;> first | rfl | omega
  | cons x xs ih =>
    cases fuel with
    | zero => exact absurd enough (Nat.not_lt_zero _)
    | succ fuel =>
      obtain ⟨-, byte, nonzero, later⟩ := first
      have goes : charInt x ≠ 0 := fun zero => nonzero ((charInt_zero x).mp zero)
      rw [strcmp, byte]
      cases t with
      | nil =>
        rw [(charInt_zero _).mpr second.2, if_neg (fun both => goes both.2)]
        show _ = some (three (compare (charInt x :: signed xs) (0 :: [])))
        rw [three_cons, if_pos goes]
        split_ifs <;> first | rfl | omega
      | cons y ys =>
        obtain ⟨-, byte', -, later'⟩ := second
        rw [byte']
        show _ = some (three (compare (charInt x :: signed xs) (charInt y :: signed ys)))
        rw [three_cons]
        by_cases same : charInt x = charInt y
        · have shorter : min xs.length ys.length < fuel := by
            rw [List.length_cons, List.length_cons] at enough
            omega
          rw [if_pos ⟨goes, same⟩, if_neg (not_not.mpr same), ih later later' shorter]
        · rw [if_neg (fun both => same both.2), if_pos same]
          split_ifs <;> first | rfl | omega

/-- `strcmp` looks at no byte behind the shorter string's NUL, and compares as `memcmp` does up to there. -/
theorem strcmp_memcmp (first : CString ∅ m a s) (second : CString ∅ m b t) (enough : min s.length t.length < fuel) :
    strcmp m fuel a b = some (memcmp m a b (min s.length t.length + 1)) := by
  induction s generalizing a b t fuel with
  | nil =>
    cases fuel with
    | zero => exact absurd enough (Nat.not_lt_zero _)
    | succ fuel =>
      have ends : charInt (load m a) = 0 := (charInt_zero _).mpr first.2
      rw [strcmp, if_neg (fun goes => goes.1 ends), List.length_nil, Nat.zero_min, memcmp, memcmp]
      split_ifs <;> first | rfl | omega
  | cons x xs ih =>
    cases fuel with
    | zero => exact absurd enough (Nat.not_lt_zero _)
    | succ fuel =>
      obtain ⟨-, byte, nonzero, later⟩ := first
      have goes : charInt (load m a) ≠ 0 := by
        rw [byte]
        exact fun zero => nonzero ((charInt_zero x).mp zero)
      rw [strcmp, memcmp]
      by_cases same : charInt (load m a) = charInt (load m b)
      · rw [if_pos ⟨goes, same⟩, if_neg (not_not.mpr same)]
        cases t with
        | nil =>
          rw [same] at goes
          exact absurd ((charInt_zero _).mpr second.2) goes
        | cons y ys =>
          obtain ⟨-, -, -, later'⟩ := second
          rw [List.length_cons, List.length_cons, Nat.succ_min_succ] at enough ⊢
          exact ih later later' (Nat.lt_of_succ_lt_succ enough)
      · rw [if_neg (fun both => same both.2), if_pos same]
        split_ifs <;> first | rfl | omega

/-- On strings of any bytes `strcmp` returns, is the three-way comparison of one total order, is 0 only for equal
strings, and agrees with `memcmp` up to the shorter string's NUL. -/
theorem strcmp_order (first : CString ∅ m a s) (second : CString ∅ m b t) (third : CString ∅ m c u)
    (enough : s.length < fuel) (more : t.length < fuel) :
    ∃ x y z, strcmp m fuel a b = some x ∧ strcmp m fuel b a = some (-x) ∧ strcmp m fuel b c = some y ∧
      strcmp m fuel a c = some z ∧ (x ≤ 0 → y ≤ 0 → z ≤ 0) ∧ (x = 0 ↔ s = t) ∧
      x = memcmp m a b (min s.length t.length + 1) := by
  have forth := strcmp_compare first second (min_lt_of_left_lt enough)
  have back := strcmp_compare second first (min_lt_of_left_lt more)
  refine ⟨_, _, _, forth, ?_, strcmp_compare second third (min_lt_of_left_lt more),
    strcmp_compare first third (min_lt_of_left_lt enough), ?_, ?_, ?_⟩
  · rw [back, ← three_swap, ← Std.OrientedCmp.eq_swap]
  · rw [three_le, three_le, three_le]
    exact Std.TransCmp.isLE_trans
  · rw [three_zero, Std.LawfulEqCmp.compare_eq_iff_eq, signed_inj]
  · have agree := strcmp_memcmp first second (min_lt_of_left_lt enough)
    rw [forth] at agree
    exact Option.some.inj agree

/-- The names of two partitions, with a byte behind the second that is negative as a `char`. -/
def sda1 : List UInt8 := "sda_1".toList.map ch
def sda10 : List UInt8 := "sda_10".toList.map ch ++ [0xE9]

theorem strcmp_partitions : ∃ x y z, strcmp (twoTexts sda1 sda10) 8 0x100 0x200 = some x ∧
    strcmp (twoTexts sda1 sda10) 8 0x200 0x100 = some (-x) ∧ strcmp (twoTexts sda1 sda10) 8 0x200 0x206 = some y ∧
    strcmp (twoTexts sda1 sda10) 8 0x100 0x206 = some z ∧ (x ≤ 0 → y ≤ 0 → z ≤ 0) ∧ (x = 0 ↔ sda1 = sda10) ∧
    x = memcmp (twoTexts sda1 sda10) 0x100 0x200 6 :=
  strcmp_order (u := [0xE9]) (cString_of_bytes (fun _ _ => id) (by decide) (by decide))
    (cString_of_bytes (fun _ _ => id) (by decide) (by decide)) (cString_of_bytes (fun _ _ => id) (by decide) (by decide))
    (by decide) (by decide)

end KOS.StringCompare
