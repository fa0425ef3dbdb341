import KOS.Print

/-! `put_int` of `print.s`, beside the `%x` of `vsprintf`. -/

namespace KOS.PrintInt
open KOS.ByteMemory KOS.LinkMemory KOS.Stdio KOS.Print

/-- `mov dl, al`. -/
def setDl (edx : Nat) (al : UInt8) : Nat := edx / 2 ^ 8 * 2 ^ 8 + al.toNat

/-- The memory, and what is left in `edx`. -/
def each4BitLoop (ebx : Nat) : Nat → Memory → Nat → Nat → Nat → Memory × Nat
  | 0, m, _, _, edx => (m, edx)
  | ecx + 1, m, edi, eax, edx =>
    let edx := edx % 16
    let edx := if 9 < edx then edx - 10 + (ch 'A').toNat else edx + (ch '0').toNat
    let m := store m (ebx + edi) (UInt8.ofNat edx)
    let edi := (edi + 2 ^ 32 - 1) % 2 ^ 32
    let eax := eax / 2 ^ 4
    let edx := eax
    each4BitLoop ebx ecx m edi eax edx

/-- `edi` and `edx`, where printing starts. -/
def skipZero (m : Memory) (ebx : Nat) : Nat → Nat → Nat → Option (Nat × Nat)
  | 0, _, _ => none
  | fuel + 1, edi, edx =>
    let edi := (edi + 1) % 2 ^ 32
    if edi = 8 then some (edi, edx)
    else
      let edx := setDl edx (load m (ebx + edi))
      if load m (ebx + edi) = ch '0' then skipZero m ebx fuel edi edx else some (edi, edx)

/-- The characters passed to `put_char`, too. -/
def printEachChar (ebx : Nat) : Nat → Console → Nat → Nat → Option (Console × List UInt8)
  | 0, _, _, _ => none
  | fuel + 1, c, edi, edx =>
    let char := UInt8.ofNat edx
    (putChar c char).bind fun c =>
      let edi := (edi + 1) % 2 ^ 32
      let edx := setDl edx (load c.memory (ebx + edi))
      if (edi : Int).bmod (2 ^ 32) < 8 then
        (printEachChar ebx fuel c edi edx).map fun r => (r.1, char :: r.2)
      else some (c, [char])

def putInt (fuel putIntBuffer : Nat) (c : Console) (eax : Nat) : Option (Console × List UInt8) :=
  let r := each4BitLoop putIntBuffer 8 c.memory 7 eax eax
  (skipZero r.1 putIntBuffer fuel (2 ^ 32 - 1) r.2).bind fun start =>
    printEachChar putIntBuffer fuel { c with memory := r.1 } start.1 start.2

/-! Numerals of a fixed length, and how a numeral is read. -/

def padded : Nat → Nat → List UInt8
  | 0, _ => []
  | n + 1, v => padded n (v / 16) ++ [digitChar (v % 16)]

def hexDigit (c : UInt8) : Option Nat :=
  if ch '0' ≤ c ∧ c ≤ ch '9' then some (c.toNat - (ch '0').toNat)
  else if ch 'A' ≤ c ∧ c ≤ ch 'F' then some (c.toNat - (ch 'A').toNat + 10)
  else none

/-- The value of a hexadecimal numeral, from its first digit on. -/
def readHex (text : List UInt8) : Option Nat :=
  text.foldlM (fun value c => (hexDigit c).map (value * 16 + ·)) 0

theorem padded_length (n v : Nat) : (padded n v).length = n := by
  induction n generalizing v with
  | zero => rfl
  | succ n ih => rw [padded, List.length_append, ih, List.length_singleton]

theorem digitChar_zero {d : Nat} (digit : d < 16) : digitChar d = ch '0' ↔ d = 0 := by
  interval_cases d <;> decide

theorem numeral_digit {v : Nat} (single : v / 16 = 0) : numeral 16 v = [digitChar (v % 16)] := by
  rw [numeral_step (by decide), if_neg (not_not_intro single), List.nil_append]

theorem numeral_digits {v : Nat} (more : v / 16 ≠ 0) :
    numeral 16 v = numeral 16 (v / 16) ++ [digitChar (v % 16)] := by
  rw [numeral_step (by decide), if_pos more]

theorem numeral_ne_nil (v : Nat) : numeral 16 v ≠ [] := by
  rw [numeral_step (by decide)]
  exact List.append_ne_nil_of_right_ne_nil _ (List.cons_ne_nil _ _)

/-- Without its leading zeros a padded numeral is the numeral; nothing is left of zero. -/
theorem padded_dropWhile {n v : Nat} (fits : v < 16 ^ n) :
    (padded n v).dropWhile (· = ch '0') = if v = 0 then [] else numeral 16 v := by
  induction n generalizing v with
  | zero =>
    rw [if_pos (Nat.lt_one_iff.mp fits)]
    rfl
  | succ n ih =>
    have high : v / 16 < 16 ^ n := Nat.div_lt_of_lt_mul (by rwa [Nat.pow_succ, Nat.mul_comm] at fits)
    have zero_iff := digitChar_zero (Nat.mod_lt v (show 0 < 16 by decide))
    rw [padded, List.dropWhile_append, ih high]
    by_cases more : v / 16 = 0
    · rw [if_pos more, List.isEmpty_nil, if_pos rfl]
      by_cases zero : v = 0
      · rw [if_pos zero, List.dropWhile_cons_of_pos]
        · rfl
        · exact decide_eq_true (zero_iff.mpr (by omega))
      · rw [if_neg zero, numeral_digit more, List.dropWhile_cons_of_neg]
        intro same
        have last := zero_iff.mp (of_decide_eq_true same)
        omega
    · rw [if_neg more, if_neg (by rw [List.isEmpty_iff]; exact numeral_ne_nil _), if_neg (by omega), numeral_digits more]

theorem hexDigit_digitChar {d : Nat} (digit : d < 16) : hexDigit (digitChar d) = some d := by
  interval_cases d <;> decide

theorem readHex_append {text : List UInt8} {value d : Nat} (before : readHex text = some value) (digit : d < 16) :
    readHex (text ++ [digitChar d]) = some (value * 16 + d) := by
  unfold readHex at before ⊢
  rw [List.foldlM_append, before]
  show (hexDigit (digitChar d)).map (value * 16 + ·) >>= _ = _
  rw [hexDigit_digitChar digit]
  rfl

theorem readHex_numeral (v : Nat) : readHex (numeral 16 v) = some v := by
  induction v using Nat.strong_induction_on with
  | _ v ih =>
    have digit := Nat.mod_lt v (show 0 < 16 by decide)
    by_cases more : v / 16 = 0
    · have read := @readHex_append [] 0 (v % 16) rfl digit
      rw [numeral_digit more]
      rwa [show 0 * 16 + v % 16 = v by omega] at read
    · have read := readHex_append (ih (v / 16) (by omega)) digit
      rw [numeral_digits more]
      rwa [show v / 16 * 16 + v % 16 = v by omega] at read

theorem numeral_head {v : Nat} (leading : (numeral 16 v).head? = some (ch '0')) : v = 0 := by
  induction v using Nat.strong_induction_on with
  | _ v ih =>
    by_cases more : v / 16 = 0
    · rw [numeral_digit more] at leading
      have zero := (digitChar_zero (Nat.mod_lt v (show 0 < 16 by decide))).mp (Option.some.inj leading)
      omega
    · rw [numeral_digits more, List.head?_append_of_ne_nil _ (numeral_ne_nil _)] at leading
      exact absurd (ih (v / 16) (by omega) leading) more

/-! The loops. -/

/-- The bytes of a text from `a` on, outside `W`. -/
def Bytes (W : Set Nat) (m : Memory) : Nat → List UInt8 → Prop
  | _, [] => True
  | a, b :: rest => a % 2 ^ 32 ∉ W ∧ load m a = b ∧ Bytes W m (a + 1) rest

section
variable {W : Set Nat} {m m' : Memory} {a ebx : Nat}

theorem Bytes.append {text : List UInt8} {b : UInt8} (bytes : Bytes W m a text)
    (outside : (a + text.length) % 2 ^ 32 ∉ W) (last : load m (a + text.length) = b) : Bytes W m a (text ++ [b]) := by
  induction text generalizing a with
  | nil => exact ⟨outside, last, trivial⟩
  | cons c rest ih =>
    rw [List.length_cons, ← Nat.add_assoc, Nat.add_right_comm] at outside last
    exact ⟨bytes.1, bytes.2.1, ih bytes.2.2 outside last⟩

theorem Bytes.congr {text : List UInt8} (bytes : Bytes W m a text) (changes : ChangesOnly W m m') : Bytes W m' a text := by
  induction text generalizing a with
  | nil => trivial
  | cons b rest ih => exact ⟨bytes.1, (changes.load bytes.1).trans bytes.2.1, ih bytes.2.2⟩

/-- `n` bytes of the buffer. -/
def bufferCells (ebx n : Nat) : Set Nat := {a | ∃ k < n, a = (ebx + k) % 2 ^ 32}

theorem each4BitLoop_padded {n : Nat} (small : n < 2 ^ 32) (apart : ∀ k < n, (ebx + k) % 2 ^ 32 ∉ W) {edi eax : Nat}
    (at_ : (edi + 1) % 2 ^ 32 = n) (range : edi < 2 ^ 32) :
    Bytes W (each4BitLoop ebx n m edi eax eax).1 ebx (padded n eax) ∧
      ChangesOnly (bufferCells ebx n) m (each4BitLoop ebx n m edi eax eax).1 ∧
      (each4BitLoop ebx n m edi eax eax).2 = eax / 16 ^ n := by
  induction n generalizing m edi eax with
  | zero => exact ⟨trivial, ChangesOnly.refl _ _, (Nat.div_one eax).symm⟩
  | succ n ih =>
    have here : edi = n := by omega
    have digit : (UInt8.ofNat (if 9 < eax % 16 then eax % 16 - 10 + (ch 'A').toNat else eax % 16 + (ch '0').toNat)) =
        digitChar (eax % 16) := by
      unfold digitChar
      by_cases decimal : eax % 16 < 10
      · rw [if_pos decimal, if_neg (by omega)]
      · rw [if_neg decimal, if_pos (by omega)]
    rw [each4BitLoop, digit, here]
    generalize stored : store m (ebx + n) (digitChar (eax % 16)) = m1
    obtain ⟨bytes, changes, left⟩ := @ih m1 (by omega) (fun k inside => apart k (by omega)) ((n + 2 ^ 32 - 1) % 2 ^ 32)
      (eax / 2 ^ 4) (by omega) (by omega)
    refine ⟨?_, ?_, ?_⟩
    · rw [padded]
      apply bytes.append
      · rw [padded_length]
        exact apart n (Nat.lt_succ_self n)
      · have unchanged : (ebx + n) % 2 ^ 32 ∉ bufferCells ebx n := by
          intro inside
          obtain ⟨k, before, same⟩ := inside
          omega
        rw [padded_length, changes.load unchanged, ← stored, load_store, if_pos rfl]
    · have first : ChangesOnly (bufferCells ebx (n + 1)) m m1 := by
        rw [← stored]
        exact store_inside ⟨n, Nat.lt_succ_self n, rfl⟩
      apply first.trans
      apply changes.mono
      intro x inside
      obtain ⟨k, before, same⟩ := inside
      exact ⟨k, before.trans (Nat.lt_succ_self n), same⟩
    · rw [left, show 2 ^ 4 = 16 from rfl, Nat.div_div_eq_div_mul, Nat.pow_succ']

theorem setDl_char (edx : Nat) (al : UInt8) : UInt8.ofNat (setDl edx al) = al := by
  apply UInt8.toNat_inj.mp
  have bound := al.toNat_lt
  rw [UInt8.toNat_ofNat', setDl]
  omega

/-- The loop stops at the first byte that is not `0`, or at 8 with the last one in `dl`. -/
theorem skipZero_bytes {rest : List UInt8} {fuel edi edx : Nat} (enough : rest.length < fuel)
    (position : (edi + 1) % 2 ^ 32 + rest.length = 8) (bytes : Bytes W m (ebx + (edi + 1) % 2 ^ 32) rest)
    (last : rest = [] → UInt8.ofNat edx = ch '0') :
    ∃ edi' edx', skipZero m ebx fuel edi edx = some (edi', edx') ∧
      edi' + (rest.dropWhile (· = ch '0')).length = 8 ∧
      Bytes W m (ebx + edi') (rest.dropWhile (· = ch '0')) ∧
      UInt8.ofNat edx' = (rest.dropWhile (· = ch '0')).headD (ch '0') := by
  induction rest generalizing fuel edi edx with
  | nil =>
    obtain ⟨fuel, same⟩ := Nat.exists_eq_add_of_lt enough
    rw [List.length_nil, Nat.add_zero] at position
    rw [same, skipZero, if_pos position]
    exact ⟨_, _, rfl, position, trivial, last rfl⟩
  | cons b rest ih =>
    rw [List.length_cons] at position enough
    cases fuel with
    | zero => exact absurd enough (Nat.not_lt_zero _)
    | succ fuel =>
      rw [skipZero, if_neg (by omega), bytes.2.1]
      by_cases zero : b = ch '0'
      · have next : ((edi + 1) % 2 ^ 32 + 1) % 2 ^ 32 = (edi + 1) % 2 ^ 32 + 1 := by omega
        have dropped : (b :: rest).dropWhile (· = ch '0') = rest.dropWhile (· = ch '0') :=
          List.dropWhile_cons_of_pos (decide_eq_true zero)
        rw [if_pos zero, dropped]
        apply ih (by omega)
        · omega
        · rw [next]
          exact bytes.2.2
        · intro _
          rw [setDl_char, zero]
      · have kept : (b :: rest).dropWhile (· = ch '0') = b :: rest :=
          List.dropWhile_cons_of_neg fun same => zero (of_decide_eq_true same)
        rw [if_neg zero, kept]
        exact ⟨_, _, rfl, position, bytes, setDl_char edx b⟩

/-- `put_char` gets `dl`, and then the bytes behind it. -/
theorem printEachChar_bytes {rest : List UInt8} {fuel edi edx : Nat} {c : Console} (enough : rest.length < fuel)
    (position : rest.length = 8 - (edi + 1)) (range : edi ≤ 8) (bytes : Bytes Console.segment c.memory (ebx + (edi + 1)) rest) :
    printEachChar ebx fuel c edi edx =
      (putChars c (UInt8.ofNat edx :: rest)).map fun c => (c, UInt8.ofNat edx :: rest) := by
  induction fuel generalizing rest edi edx c with
  | zero => exact absurd enough (Nat.not_lt_zero _)
  | succ fuel ih =>
    rw [printEachChar, putChars]
    cases ran : putChar c (UInt8.ofNat edx) with
    | none => rfl
    | some d =>
      have next : (edi + 1) % 2 ^ 32 = edi + 1 := by omega
      have signed : ((edi + 1 : Nat) : Int).bmod (2 ^ 32) = (edi + 1 : Nat) := Int.bmod_eq_of_le (by omega) (by omega)
      have bytes := bytes.congr (putChar_changes ran)
      rw [Option.bind_some, Option.bind_some, next]
      show (if ((edi + 1 : Nat) : Int).bmod (2 ^ 32) < 8 then _ else _) = _
      rw [signed]
      cases rest with
      | nil =>
        rw [List.length_nil] at position
        rw [if_neg (by omega)]
        rfl
      | cons b rest =>
        rw [List.length_cons] at position enough
        rw [if_pos (by omega), bytes.2.1, ih (by omega) (by omega) (by omega) bytes.2.2, setDl_char, Option.map_map]
        rfl

end

/-! `put_int`. -/

theorem numeral_digit_of_mem {v : Nat} {c : UInt8} (inside : c ∈ numeral 16 v) : ∃ d < 16, c = digitChar d := by
  unfold numeral at inside
  by_cases zero : v = 0
  · rw [if_pos zero] at inside
    exact ⟨0, by decide, List.mem_singleton.mp inside⟩
  · rw [if_neg zero] at inside
    obtain ⟨d, digit, same⟩ := List.mem_map.mp inside
    exact ⟨d, Nat.digits_lt_base (by decide) (List.mem_reverse.mp digit), same.symm⟩

theorem digitChar_printable {d : Nat} (digit : d < 16) :
    digitChar d ≠ 0x8 ∧ ¬(digitChar d = 0xd ∨ digitChar d = 0xa) := by
  interval_cases d <;> decide

/-- The numeral is what follows the zeros, and the last zero where nothing does. -/
theorem numeral_padded {v : Nat} (fits : v < 2 ^ 32) :
    numeral 16 v = ((padded 8 v).dropWhile (· = ch '0')).headD (ch '0') ::
      ((padded 8 v).dropWhile (· = ch '0')).tail := by
  rw [padded_dropWhile (by omega)]
  by_cases zero : v = 0
  · rw [if_pos zero, zero]
    rfl
  · rw [if_neg zero]
    cases text : numeral 16 v with
    | nil => exact absurd text (numeral_ne_nil v)
    | cons b rest => rfl

theorem numeral_length {v : Nat} (fits : v < 2 ^ 32) : (numeral 16 v).length ≤ 8 := by
  have shorter : ((padded 8 v).dropWhile (· = ch '0')).length ≤ (padded 8 v).length :=
    (List.dropWhile_sublist _).length_le
  rw [padded_length] at shorter
  rw [numeral_padded fits, List.length_cons, List.length_tail]
  omega

/-- Printable characters come back from any cursor whose cell lies in the segment. -/
theorem putChars_returns {c : Console} {text : List UInt8} (reach : c.cursor < 0x4000)
    (printable : ∀ b ∈ text, b ≠ 0x8 ∧ ¬(b = 0xd ∨ b = 0xa)) : (putChars c text).isSome := by
  induction text generalizing c with
  | nil => rfl
  | cons b rest ih =>
    have first := printable b List.mem_cons_self
    obtain ⟨d, ran, reach⟩ := putChar_returns first.1 first.2 reach
    rw [putChars, ran]
    exact ih reach fun b inside => printable b (List.mem_cons_of_mem _ inside)

/-- `put_int` fills its buffer and passes the numeral to `put_char`. -/
theorem putInt_eq {buffer v : Nat} {start : Console} (fits : v < 2 ^ 32)
    (apart : ∀ k < 8, (buffer + k) % 2 ^ 32 ∉ Console.segment) :
    ∃ filled, ChangesOnly (bufferCells buffer 8) start.memory filled ∧ ∀ fuel, 9 ≤ fuel →
      putInt fuel buffer start v =
        (putChars { start with memory := filled } (numeral 16 v)).map fun c => (c, numeral 16 v) := by
  obtain ⟨bytes, changes, -⟩ := @each4BitLoop_padded Console.segment start.memory buffer 8 (by decide) apart 7 v rfl (by decide)
  refine ⟨_, changes, ?_⟩
  intro fuel enough
  have length := padded_length 8 v
  have some_ : padded 8 v ≠ [] := List.ne_nil_of_length_eq_add_one length
  obtain ⟨edi, edx, skipped, position, behind, dl⟩ := @skipZero_bytes Console.segment _ buffer (padded 8 v) fuel (2 ^ 32 - 1)
    (each4BitLoop buffer 8 start.memory 7 v v).2 (by omega) (by omega) bytes (fun none_ => absurd none_ some_)
  have shorter : ((padded 8 v).dropWhile (· = ch '0')).tail.length = 8 - (edi + 1) := by
    rw [List.length_tail]
    omega
  show ((skipZero _ _ _ _ _).bind fun start => _) = _
  rw [skipped, Option.bind_some, numeral_padded fits, ← dl]
  apply printEachChar_bytes _ shorter
  · omega
  · cases left : (padded 8 v).dropWhile (· = ch '0') with
    | nil => trivial
    | cons b rest =>
      rw [left] at behind
      exact behind.2.2
  · omega

theorem putInt_returns {buffer v : Nat} {start : Console} (fits : v < 2 ^ 32)
    (apart : ∀ k < 8, (buffer + k) % 2 ^ 32 ∉ Console.segment) (reach : start.cursor < 0x4000) {fuel : Nat}
    (enough : 9 ≤ fuel) : (putInt fuel buffer start v).isSome := by
  obtain ⟨filled, -, runs⟩ := @putInt_eq buffer v start fits apart
  rw [runs fuel enough, Option.isSome_map]
  apply putChars_returns
  · exact reach
  · intro b inside
    obtain ⟨d, digit, same⟩ := numeral_digit_of_mem inside
    rw [same]
    exact digitChar_printable digit

/-- What `put_int` passes to `put_char` is what `%x` writes, and it reads as `v`. -/
theorem putInt_vsprintf (v : BitVec 32) (buffer : Nat) (start : Console)
    (apart : ∀ k < 8, (buffer + k) % 2 ^ 32 ∉ Console.segment) (m : Memory) (str format ap : Nat)
    (source : CString (outputCells str (numeral 16 v.toNat).length) m format [ch '%', ch 'x'])
    (argument : Slot (outputCells str (numeral 16 v.toNat).length) m (ap + 4) (.int v)) :
    (∃ filled, ChangesOnly (bufferCells buffer 8) start.memory filled ∧ ∀ fuel, 9 ≤ fuel →
      putInt fuel buffer start v.toNat =
        (putChars { start with memory := filled } (numeral 16 v.toNat)).map fun c => (c, numeral 16 v.toNat)) ∧
    (start.cursor < 0x4000 → ∀ fuel, 9 ≤ fuel → (putInt fuel buffer start v.toNat).isSome) ∧
    (∀ fuel, 9 ≤ fuel → vsprintf fuel m str format ap =
      some (writeAll m str (numeral 16 v.toNat ++ [0]), (numeral 16 v.toNat).length)) ∧
    readHex (numeral 16 v.toNat) = some v.toNat ∧ ((numeral 16 v.toNat).head? = some (ch '0') → v.toNat = 0) := by
  have rendered : render [ch '%', ch 'x'] [.int v] = some (numeral 16 v.toNat) := by
    show some (numeral 16 v.toNat ++ []) = _
    rw [List.append_nil]
  have length := numeral_length v.isLt
  refine ⟨putInt_eq v.isLt apart, fun reach fuel => putInt_returns v.isLt apart reach, ?_, readHex_numeral _, numeral_head⟩
  intro fuel enough
  exact vsprintf_text rendered source ⟨argument, trivial⟩ (show 2 < fuel by omega) (by omega)

/-- `%x` at 0x100 and 0xBEEF at 0x204. -/
def hexMemory : Memory := fun a =>
  if a < 0x200 then [ch '%', ch 'x', 0].getD (a - 0x100) 0 else [0xEF, 0xBE, 0, 0].getD (a - 0x204) 0

theorem putInt_vsprintf_beef :
    (putInt 9 0x1000 cleared 0xBEEF).isSome ∧
      vsprintf 9 hexMemory 0x400 0x100 0x200 = some (writeAll hexMemory 0x400 (numeral 16 0xBEEF ++ [0]), (numeral 16 0xBEEF).length) ∧
      readHex (numeral 16 0xBEEF) = some 0xBEEF := by
  have low : ∀ a < 0x400, a % 2 ^ 32 ∉ outputCells 0x400 (numeral 16 0xBEEF).length := by
    intro a below
    exact not_mem_outputCells (by have := @numeral_length 0xBEEF (by decide); omega) below
  have apart : ∀ k < 8, (0x1000 + k) % 2 ^ 32 ∉ Console.segment := by
    intro k small inside
    have above : videoBase ≤ (0x1000 + k) % 2 ^ 32 := inside.1
    unfold videoBase at above
    omega
  have source : CString (outputCells 0x400 (numeral 16 0xBEEF).length) hexMemory 0x100 [ch '%', ch 'x'] :=
    ⟨low _ (by decide), by decide, by decide, low _ (by decide), by decide, by decide, low _ (by decide), by decide⟩
  have argument : Slot (outputCells 0x400 (numeral 16 0xBEEF).length) hexMemory (0x200 + 4) (.int 0xBEEF) :=
    ⟨fun k small => low _ (by omega), by decide⟩
  have both := putInt_vsprintf 0xBEEF 0x1000 cleared apart hexMemory 0x400 0x100 0x200 source argument
  exact ⟨both.2.1 (by decide) 9 (le_refl 9), both.2.2.1 9 (le_refl 9), both.2.2.2.1⟩

end KOS.PrintInt
