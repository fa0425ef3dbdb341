import KOS.Stdio

/-! `strchr`, `strrchr` and `strchrs` of `string.c`: a signed `char` of the string against an unsigned byte. -/

namespace KOS.StringSearch
open KOS.ByteMemory KOS.Stdio

/-- The value a plain `char` is promoted to. -/
def charInt (c : UInt8) : Int := c.toInt8.toInt

/-! The outer `none` stands for a loop that the fuel did not finish, the inner one for NULL. -/

def strchr (ch : UInt8) : Nat → Memory → Nat → Option (Option Nat)
  | 0, _, _ => none
  | fuel + 1, m, str =>
      if charInt (load m str) ≠ 0 then
        if charInt (load m str) = ch.toNat then some (some str) else strchr ch fuel m (str + 1)
      else some none

def strrchrLoop (ch : UInt8) : Nat → Memory → Nat → Option Nat → Option (Option Nat)
  | 0, _, _, _ => none
  | fuel + 1, m, str, lastChar =>
      if charInt (load m str) ≠ 0 then
        let lastChar := if charInt (load m str) = ch.toNat then some str else lastChar
        strrchrLoop ch fuel m (str + 1) lastChar
      else some lastChar

def strrchr (ch : UInt8) (fuel : Nat) (m : Memory) (str : Nat) : Option (Option Nat) :=
  strrchrLoop ch fuel m str none

def strchrsLoop (ch : UInt8) : Nat → Memory → Nat → Nat → Option Nat
  | 0, _, _, _ => none
  | fuel + 1, m, p, chCnt =>
      if charInt (load m p) ≠ 0 then
        let chCnt := if charInt (load m p) = ch.toNat then (chCnt + 1) % 2 ^ 32 else chCnt
        strchrsLoop ch fuel m (p + 1) chCnt
      else some chCnt

def strchrs (ch : UInt8) (fuel : Nat) (m : Memory) (str : Nat) : Option Nat := strchrsLoop ch fuel m str 0

/-! Positions in a text. -/

section Positions
variable {P : UInt8 → Prop} {text : List UInt8} {r : Option Nat}

/-- The first position of `P`, or that there is none. -/
def IsFirst (P : UInt8 → Prop) (text : List UInt8) : Option Nat → Prop
  | none => ∀ c ∈ text, ¬P c
  | some i => (∃ c ∈ text[i]?, P c) ∧ ∀ j < i, ∀ c ∈ text[j]?, ¬P c

def IsLast (P : UInt8 → Prop) (text : List UInt8) : Option Nat → Prop
  | none => ∀ c ∈ text, ¬P c
  | some i => (∃ c ∈ text[i]?, P c) ∧ ∀ j, i < j → ∀ c ∈ text[j]?, ¬P c

theorem IsFirst.none_iff (first : IsFirst P text r) : r = none ↔ ∀ c ∈ text, ¬P c := by
  cases r with
  | none => exact iff_of_true rfl first
  | some i =>
    obtain ⟨⟨c, at_, holds⟩, -⟩ := first
    apply iff_of_false (Option.some_ne_none i)
    intro nowhere
    exact nowhere c (List.mem_of_getElem? at_) holds

theorem IsLast.none_iff (last : IsLast P text r) : r = none ↔ ∀ c ∈ text, ¬P c := by
  cases r with
  | none => exact iff_of_true rfl last
  | some i =>
    obtain ⟨⟨c, at_, holds⟩, -⟩ := last
    apply iff_of_false (Option.some_ne_none i)
    intro nowhere
    exact nowhere c (List.mem_of_getElem? at_) holds

theorem IsFirst.congr {Q : UInt8 → Prop} (same : ∀ c ∈ text, P c ↔ Q c) (first : IsFirst P text r) : IsFirst Q text r := by
  cases r with
  | none => exact fun c member holds => first c member ((same c member).mpr holds)
  | some i =>
    obtain ⟨⟨c, at_, holds⟩, before⟩ := first
    refine ⟨⟨c, at_, (same c (List.mem_of_getElem? at_)).mp holds⟩, ?_⟩
    intro j less d at_' holds'
    exact before j less d at_' ((same d (List.mem_of_getElem? at_')).mpr holds')

theorem IsLast.congr {Q : UInt8 → Prop} (same : ∀ c ∈ text, P c ↔ Q c) (last : IsLast P text r) : IsLast Q text r := by
  cases r with
  | none => exact fun c member holds => last c member ((same c member).mpr holds)
  | some i =>
    obtain ⟨⟨c, at_, holds⟩, after⟩ := last
    refine ⟨⟨c, at_, (same c (List.mem_of_getElem? at_)).mp holds⟩, ?_⟩
    intro j more d at_' holds'
    exact after j more d at_' ((same d (List.mem_of_getElem? at_')).mpr holds')

theorem IsFirst.cons {b : UInt8} (other : ¬P b) (first : IsFirst P text r) : IsFirst P (b :: text) (r.map (· + 1)) := by
  cases r with
  | none =>
    intro c member
    rcases List.mem_cons.mp member with same | later
    · rwa [same]
    · exact first c later
  | some i =>
    refine ⟨first.1, ?_⟩
    intro j before c at_
    cases j with
    | zero =>
      rw [← Option.some.inj at_]
      exact other
    | succ j => exact first.2 j (Nat.lt_of_succ_lt_succ before) c at_

theorem IsLast.cons {b : UInt8} [Decidable (P b)] (last : IsLast P text r) :
    IsLast P (b :: text) ((r.map (· + 1)).or (if P b then some 0 else none)) := by
  cases r with
  | some i =>
    refine ⟨last.1, ?_⟩
    intro j after c at_
    cases j with
    | zero => omega
    | succ j => exact last.2 j (Nat.lt_of_succ_lt_succ after) c at_
  | none =>
    by_cases here : P b
    · rw [if_pos here]
      refine ⟨⟨b, rfl, here⟩, ?_⟩
      intro j after c at_
      cases j with
      | zero => omega
      | succ j => exact last c (List.mem_of_getElem? at_)
    · rw [if_neg here]
      intro c member
      rcases List.mem_cons.mp member with same | later
      · rwa [same]
      · exact last c later

end Positions

/-! What the loops find. -/

variable {m : Memory} {ch : UInt8} {text : List UInt8} {str fuel : Nat}

theorem charInt_eq (c : UInt8) : charInt c = if c.toNat < 128 then (c.toNat : Int) else c.toNat - 256 := by
  have bound := UInt8.toNat_lt c
  have signed : charInt c = (c.toNat : Int).bmod 256 := BitVec.toInt_eq_toNat_bmod c.toBitVec
  rw [signed, Int.bmod_def]
  split_ifs <;> omega

theorem charInt_zero (c : UInt8) : charInt c = 0 ↔ c = 0 := by
  have bound := UInt8.toNat_lt c
  rw [charInt_eq, ← UInt8.toNat_inj]
  show _ ↔ c.toNat = 0
  split_ifs <;> omega

/-- A byte from 128 on equals no `char`. -/
theorem charInt_byte (c ch : UInt8) : charInt c = ch.toNat ↔ c = ch ∧ ch.toNat < 128 := by
  have bound := UInt8.toNat_lt c
  rw [charInt_eq, ← UInt8.toNat_inj]
  split_ifs <;> omega

theorem strchr_at (string : CString ∅ m str text) (enough : text.length < fuel) :
    ∃ r, strchr ch fuel m str = some (r.map (str + ·)) ∧ IsFirst (charInt · = ch.toNat) text r := by
  induction text generalizing str fuel with
  | nil =>
    cases fuel with
    | zero => omega
    | succ fuel =>
      have stop : ¬charInt (load m str) ≠ 0 := not_not.mpr ((charInt_zero _).mpr string.2)
      refine ⟨none, ?_, fun c member => absurd member List.not_mem_nil⟩
      rw [strchr, if_neg stop]
      rfl
  | cons b rest ih =>
    cases fuel with
    | zero => exact absurd enough (Nat.not_lt_zero _)
    | succ fuel =>
      obtain ⟨-, byte, some_, later⟩ := string
      have more : charInt b ≠ 0 := fun zero => some_ ((charInt_zero b).mp zero)
      rw [strchr, byte, if_pos more]
      by_cases here : charInt b = ch.toNat
      · refine ⟨some 0, by rw [if_pos here]; rfl, ⟨b, rfl, here⟩, ?_⟩
        intro j before
        omega
      · obtain ⟨r, ran, first⟩ := ih later (Nat.lt_of_succ_lt_succ enough)
        refine ⟨r.map (· + 1), ?_, first.cons here⟩
        rw [if_neg here, ran, Option.map_map]
        congr 2
        funext i
        show str + 1 + i = str + (i + 1)
        omega

theorem strrchrLoop_at (lastChar : Option Nat) (string : CString ∅ m str text) (enough : text.length < fuel) :
    ∃ r, strrchrLoop ch fuel m str lastChar = some ((r.map (str + ·)).or lastChar) ∧
      IsLast (charInt · = ch.toNat) text r := by
  induction text generalizing str fuel lastChar with
  | nil =>
    cases fuel with
    | zero => omega
    | succ fuel =>
      have stop : ¬charInt (load m str) ≠ 0 := not_not.mpr ((charInt_zero _).mpr string.2)
      refine ⟨none, ?_, fun c member => absurd member List.not_mem_nil⟩
      rw [strrchrLoop, if_neg stop]
      rfl
  | cons b rest ih =>
    cases fuel with
    | zero => exact absurd enough (Nat.not_lt_zero _)
    | succ fuel =>
      obtain ⟨-, byte, some_, later⟩ := string
      have more : charInt b ≠ 0 := fun zero => some_ ((charInt_zero b).mp zero)
      obtain ⟨r, ran, last⟩ := ih (if charInt b = ch.toNat then some str else lastChar) later (Nat.lt_of_succ_lt_succ enough)
      refine ⟨_, ?_, last.cons⟩
      rw [strrchrLoop, byte, if_pos more]
      dsimp only
      rw [ran]
      congr 1
      cases r with
      | none =>
        split_ifs <;> rfl
      | some i =>
        show some (str + 1 + i) = some (str + (i + 1))
        congr 1
        omega

theorem strchrsLoop_at (chCnt : Nat) (string : CString ∅ m str text) (enough : text.length < fuel)
    (small : chCnt + text.length < 2 ^ 32) :
    strchrsLoop ch fuel m str chCnt = some (chCnt + text.countP (charInt · = ch.toNat)) := by
  induction text generalizing str fuel chCnt with
  | nil =>
    cases fuel with
    | zero => omega
    | succ fuel =>
      have stop : ¬charInt (load m str) ≠ 0 := not_not.mpr ((charInt_zero _).mpr string.2)
      rw [strchrsLoop, if_neg stop]
      rfl
  | cons b rest ih =>
    cases fuel with
    | zero => exact absurd enough (Nat.not_lt_zero _)
    | succ fuel =>
      obtain ⟨-, byte, some_, later⟩ := string
      rw [List.length_cons] at small
      have more : charInt b ≠ 0 := fun zero => some_ ((charInt_zero b).mp zero)
      rw [strchrsLoop, byte, if_pos more]
      dsimp only
      by_cases here : charInt b = ch.toNat
      · have one : (b :: rest).countP (charInt · = ch.toNat) = rest.countP (charInt · = ch.toNat) + 1 :=
          List.countP_cons_of_pos (decide_eq_true here)
        rw [if_pos here, ih _ later (Nat.lt_of_succ_lt_succ enough) (by omega), one]
        congr 1
        omega
      · have none : (b :: rest).countP (charInt · = ch.toNat) = rest.countP (charInt · = ch.toNat) :=
          List.countP_cons_of_neg (by rwa [decide_eq_true_eq])
        rw [if_neg here, ih _ later (Nat.lt_of_succ_lt_succ enough) (by omega), none]

/-- A string ends before the addresses repeat. -/
theorem cString_small (string : CString ∅ m str text) : text.length < 2 ^ 32 := by
  have bytes : ∀ {a : Nat} {s : List UInt8}, CString ∅ m a s → load m (a + s.length) = 0 ∧
      ∀ i < s.length, load m (a + i) ≠ 0 := by
    intro a s
    induction s generalizing a with
    | nil => exact fun string => ⟨string.2, fun i inside => absurd inside (Nat.not_lt_zero i)⟩
    | cons b rest ih =>
      intro string
      obtain ⟨-, byte, some_, later⟩ := string
      obtain ⟨last, before⟩ := ih later
      constructor
      · rw [List.length_cons, ← last]
        congr 1
        omega
      · intro i inside
        cases i with
        | zero => rwa [Nat.add_zero, byte]
        | succ i =>
          have there := before i (Nat.lt_of_succ_lt_succ inside)
          rwa [Nat.add_assoc, Nat.add_comm 1 i] at there
  obtain ⟨last, before⟩ := bytes string
  by_contra long
  apply before (text.length % 2 ^ 32) (by omega)
  rw [← last]
  apply load_congr
  omega

/-- The three calls, whatever the byte. -/
theorem searches_at (ch : UInt8) (string : CString ∅ m str text) (enough : text.length < fuel) :
    ∃ first last, strchr ch fuel m str = some (first.map (str + ·)) ∧ strrchr ch fuel m str = some (last.map (str + ·)) ∧
      strchrs ch fuel m str = some (text.countP (charInt · = ch.toNat)) ∧
      IsFirst (charInt · = ch.toNat) text first ∧ IsLast (charInt · = ch.toNat) text last := by
  obtain ⟨first, ran, isFirst⟩ := @strchr_at m ch text str fuel string enough
  obtain ⟨last, ran', isLast⟩ := @strrchrLoop_at m ch text str fuel none string enough
  have counted := @strchrsLoop_at m ch text str fuel 0 string enough (by rw [Nat.zero_add]; exact cString_small string)
  rw [Nat.zero_add] at counted
  rw [Option.or_none] at ran'
  exact ⟨first, last, ran, ran', counted, isFirst, isLast⟩

/-- All three say alike whether the byte is there. -/
theorem nulls_agree (ch : UInt8) (string : CString ∅ m str text) (enough : text.length < fuel) :
    (strchr ch fuel m str = some none ↔ strrchr ch fuel m str = some none) ∧
      (strchr ch fuel m str = some none ↔ strchrs ch fuel m str = some 0) := by
  obtain ⟨first, last, ran, ran', counted, isFirst, isLast⟩ := searches_at ch string enough
  have nowhere : text.countP (charInt · = ch.toNat) = 0 ↔ ∀ c ∈ text, ¬charInt c = ch.toNat := by
    rw [List.countP_eq_zero]
    simp only [decide_eq_true_eq]
  rw [ran, ran', counted, Option.some.injEq, Option.some.injEq, Option.some.injEq, Option.map_eq_none_iff,
    Option.map_eq_none_iff, isFirst.none_iff, isLast.none_iff, nowhere]
  exact ⟨Iff.rfl, Iff.rfl⟩

/-- The positions and the number of `ch` in the string. -/
structure Searches (m : Memory) (ch : UInt8) (str fuel : Nat) (text : List UInt8) : Prop where
  first : ∃ r, strchr ch fuel m str = some (r.map (str + ·)) ∧ IsFirst (· = ch) text r
  last : ∃ r, strrchr ch fuel m str = some (r.map (str + ·)) ∧ IsLast (· = ch) text r
  count : strchrs ch fuel m str = some (text.count ch)
  nulls : (strchr ch fuel m str = some none ↔ strrchr ch fuel m str = some none) ∧
    (strchr ch fuel m str = some none ↔ strchrs ch fuel m str = some 0)

/-- The searches are right for the bytes below 128, and for those that the string does not hold. -/
theorem searches_iff (string : CString ∅ m str text) (enough : text.length < fuel) :
    Searches m ch str fuel text ↔ ch.toNat < 128 ∨ ch ∉ text := by
  obtain ⟨first, last, ran, ran', counted, isFirst, isLast⟩ := searches_at ch string enough
  constructor
  · intro searches
    by_contra neither
    obtain ⟨high, there⟩ := not_or.mp neither
    have zero : text.countP (charInt · = ch.toNat) = 0 := by
      rw [List.countP_eq_zero]
      intro c member
      rw [decide_eq_true_eq, charInt_byte]
      exact fun both => high both.2
    have same := searches.count
    rw [counted, zero] at same
    exact List.count_eq_zero.mp (Option.some.inj same).symm (not_not.mp there)
  · intro right
    have same : ∀ c ∈ text, charInt c = ch.toNat ↔ c = ch := by
      intro c member
      rw [charInt_byte]
      rcases right with low | absent
      · exact and_iff_left low
      · exact iff_of_false (fun both => absent (both.1 ▸ member)) (fun equal => absent (equal ▸ member))
    have counts : text.countP (charInt · = ch.toNat) = text.count ch := by
      rw [List.count, List.countP_congr]
      intro c member
      rw [decide_eq_true_eq, beq_iff_eq]
      exact same c member
    rw [counts] at counted
    exact ⟨⟨first, ran, isFirst.congr same⟩, ⟨last, ran', isLast.congr same⟩, counted, nulls_agree ch string enough⟩

/-- A string of a byte above 127 and one below, at address 16. -/
def latin : List UInt8 := [0xE9, 0x61]

def latinMemory : Memory := fun a => latin.getD (a - 16) 0

theorem latin_string : CString ∅ latinMemory 16 latin :=
  ⟨Set.notMem_empty _, rfl, by decide, Set.notMem_empty _, rfl, by decide, Set.notMem_empty _, rfl⟩

theorem searches_iff_latin : Searches latinMemory 0x61 16 3 latin ↔ UInt8.toNat 0x61 < 128 ∨ 0x61 ∉ latin :=
  searches_iff latin_string (by decide)

/-- The byte 0xE9 is there, and `strchr` returns NULL. -/
theorem latin_missed :
    CString ∅ latinMemory 16 latin ∧ 0xE9 ∈ latin ∧ strchr 0xE9 3 latinMemory 16 = some none ∧
      ¬Searches latinMemory 0xE9 16 3 latin := by
  have missed : strchr 0xE9 3 latinMemory 16 = some none := by decide
  refine ⟨latin_string, by decide, missed, ?_⟩
  intro searches
  obtain ⟨r, ran, first⟩ := searches.first
  rw [missed] at ran
  have null : r = none := Option.map_eq_none_iff.mp (Option.some.inj ran).symm
  rw [first.none_iff] at null
  exact null 0xE9 (by decide) rfl

end KOS.StringSearch
