import KOS.LinkMemory

/-! `stdio.c`: `vsprintf` over a byte memory, and the text that a format and its arguments stand for.
Pointers are not reduced; every access to memory wraps them. -/

namespace KOS.Stdio
open KOS.ByteMemory KOS.LinkMemory

def ch (c : Char) : UInt8 := c.toUInt8

/-! `strcpy` and `strlen` of `string.c`. `none` stands for a loop that the fuel did not finish. -/

def strcpy : Nat → Memory → Nat → Nat → Option Memory
  | 0, _, _, _ => none
  | fuel + 1, m, dst, src =>
      let c := load m src
      let m := store m dst c
      if c = 0 then some m else strcpy fuel m (dst + 1) (src + 1)

/-- `while (*pStr++)`: where the loop leaves `pStr`. -/
def strlenLoop : Nat → Memory → Nat → Option Nat
  | 0, _, _ => none
  | fuel + 1, m, pStr => if load m pStr = 0 then some (pStr + 1) else strlenLoop fuel m (pStr + 1)

def strlen (fuel : Nat) (m : Memory) (str : Nat) : Option Nat :=
  (strlenLoop fuel m str).map fun pStr => (pStr - str - 1) % 2 ^ 32

/-- The memory and `*buf_ptr_addr` after the digits. Base 0 divides by zero and base 1 never ends. -/
def itoa (base : Nat) (big : 1 < base) (value : Nat) (m : Memory) (bufPtr : Nat) : Memory × Nat :=
  let digit := value % base
  let i := value / base
  let (m, bufPtr) := if _ : i ≠ 0 then itoa base big i m bufPtr else (m, bufPtr)
  if digit < 10 then (store m bufPtr (UInt8.ofNat (digit + (ch '0').toNat)), bufPtr + 1)
  else (store m bufPtr (UInt8.ofNat (digit - 10 + (ch 'A').toNat)), bufPtr + 1)
termination_by value
decreasing_by
  apply Nat.div_lt_self _ big
  apply Nat.pos_of_ne_zero
  intro zero
  have none : value / base = 0 := by rw [zero, Nat.zero_div]
  exact absurd none ‹_›

/-- The `switch`, on the character after the percent sign: memory, `out` and `ap`. -/
def conversion (fuel : Nat) (c : UInt8) (m : Memory) (out ap : Nat) : Option (Memory × Nat × Nat) :=
  if c = ch 's' then
    let ap := ap + 4
    let argStr := load32 m ap
    (strcpy fuel m out argStr).bind fun m => (strlen fuel m argStr).map fun len => (m, out + len, ap)
  else if c = ch 'c' then
    let ap := ap + 4
    some (store m out (load m ap), out + 1, ap)
  else if c = ch 'd' then
    let ap := ap + 4
    let argInt := load32 m ap
    -- the sign bit of an `int32_t`
    let (argInt, m, out) := if 2 ^ 31 ≤ argInt then ((2 ^ 32 - argInt) % 2 ^ 32, store m out (ch '-'), out + 1)
      else (argInt, m, out)
    let (m, out) := itoa 10 (by decide) argInt m out
    some (m, out, ap)
  else if c = ch 'x' then
    let ap := ap + 4
    let argInt := load32 m ap
    let (m, out) := itoa 16 (by decide) argInt m out
    some (m, out, ap)
  else some (m, out, ap)

def vsprintfLoop (fuel : Nat) : Nat → Memory → Nat → Nat → Nat → Option (Memory × Nat)
  | 0, _, _, _, _ => none
  | passes + 1, m, out, format, ap =>
      let c := load m format
      if c = 0 then some (m, out)
      else if c ≠ ch '%' then vsprintfLoop fuel passes (store m out c) (out + 1) (format + 1) ap
      else
        (conversion fuel (load m (format + 1)) m out ap).bind fun r =>
          vsprintfLoop fuel passes r.1 r.2.1 (format + 2) r.2.2

/-- The memory after the call, and the number it returns. -/
def vsprintf (fuel : Nat) (m : Memory) (str format ap : Nat) : Option (Memory × Nat) :=
  (vsprintfLoop fuel fuel m str format ap).map fun r => (store r.1 r.2 0, (r.2 - str) % 2 ^ 32)

/-! What is printed. -/

inductive Arg
  | str (s : List UInt8)
  | chr (c : UInt8)
  | int (v : BitVec 32)

/-- `0` to `9`, then `A` to `F`. -/
def digitChar (d : Nat) : UInt8 :=
  if d < 10 then UInt8.ofNat (d + (ch '0').toNat) else UInt8.ofNat (d - 10 + (ch 'A').toNat)

/-- The numeral without leading zeros. -/
def numeral (base n : Nat) : List UInt8 :=
  if n = 0 then [ch '0'] else (Nat.digits base n).reverse.map digitChar

def decimal (v : BitVec 32) : List UInt8 :=
  if v.toInt < 0 then ch '-' :: numeral 10 v.toInt.natAbs else numeral 10 v.toInt.natAbs

/-- What a percent pair prints, and the arguments it leaves. -/
def convert (c : UInt8) (args : List Arg) : Option (List UInt8 × List Arg) :=
  if c = ch 's' then match args with
    | .str s :: rest => some (s, rest)
    | _ => none
  else if c = ch 'c' then match args with
    | .chr b :: rest => some ([b], rest)
    | _ => none
  else if c = ch 'd' then match args with
    | .int v :: rest => some (decimal v, rest)
    | _ => none
  else if c = ch 'x' then match args with
    | .int v :: rest => some (numeral 16 v.toNat, rest)
    | _ => none
  else some ([], args)

/-- The text of a format; `none` when an argument is missing or a percent sign ends the format. -/
def render : List UInt8 → List Arg → Option (List UInt8)
  | [], _ => some []
  | [c], _ => if c = ch '%' then none else some [c]
  | c :: d :: rest, args =>
      if c = ch '%' then (convert d args).bind fun (written, args) => (render rest args).map (written ++ ·)
      else (render (d :: rest) args).map (c :: ·)

/-! Writing bytes one after the other. -/

def writeAll : Memory → Nat → List UInt8 → Memory
  | m, _, [] => m
  | m, a, b :: rest => writeAll (store m a b) (a + 1) rest

theorem writeAll_append (m : Memory) (a : Nat) (left right : List UInt8) :
    writeAll m a (left ++ right) = writeAll (writeAll m a left) (a + left.length) right := by
  induction left generalizing m a with
  | nil => rfl
  | cons b rest ih =>
    rw [List.cons_append, writeAll, writeAll, ih, List.length_cons, Nat.add_assoc, Nat.add_comm 1]

theorem store_store (m : Memory) (a : Nat) (b c : UInt8) : store (store m a b) a c = store m a c := by
  funext x
  unfold store
  split <;> rfl

/-- `m'` is `m` up to the byte at `out`, which the next character or the final NUL overwrites. -/
def Pending (m m' : Memory) (out : Nat) : Prop := ∀ b, store m' out b = store m out b

theorem Pending.refl (m : Memory) (out : Nat) : Pending m m out := fun _ => rfl

theorem pending_store (m : Memory) (out : Nat) (b : UInt8) : Pending m (store m out b) out := by
  intro c
  exact store_store m out b c

theorem Pending.trans {m m' m'' : Memory} {out : Nat} (first : Pending m m' out) (second : Pending m' m'' out) :
    Pending m m'' out := fun b => (second b).trans (first b)

theorem Pending.writeAll {m m' : Memory} {out : Nat} (pending : Pending m m' out) (bytes : List UInt8) :
    Pending (writeAll m out bytes) (Stdio.writeAll m' out bytes) (out + bytes.length) := by
  cases bytes with
  | nil => exact pending
  | cons b rest =>
    have same : Stdio.writeAll m' out (b :: rest) = Stdio.writeAll m out (b :: rest) := by
      rw [Stdio.writeAll, Stdio.writeAll, pending b]
    rw [same]
    exact Pending.refl _ _

/-! Reading a string that no write reaches. -/

/-- The C string `s` at `a`, outside `W`. -/
def CString (W : Set Nat) (m : Memory) : Nat → List UInt8 → Prop
  | a, [] => a % 2 ^ 32 ∉ W ∧ load m a = 0
  | a, b :: rest => a % 2 ^ 32 ∉ W ∧ load m a = b ∧ b ≠ 0 ∧ CString W m (a + 1) rest

/-- `a` holds the slot of the argument, outside `W`. -/
def Slot (W : Set Nat) (m : Memory) (a : Nat) (arg : Arg) : Prop :=
  (∀ i < 4, (a + i) % 2 ^ 32 ∉ W) ∧
    match arg with
    | .str s => CString W m (load32 m a) s
    | .chr c => load m a = c
    | .int v => load32 m a = v.toNat

/-- The slots above `ap` hold the arguments. -/
def Supplies (W : Set Nat) (m : Memory) : Nat → List Arg → Prop
  | _, [] => True
  | ap, arg :: rest => Slot W m (ap + 4) arg ∧ Supplies W m (ap + 4) rest

variable {W : Set Nat} {m m' : Memory}

theorem CString.congr {a : Nat} {s : List UInt8} (text : CString W m a s) (changes : ChangesOnly W m m') :
    CString W m' a s := by
  induction s generalizing a with
  | nil =>
    obtain ⟨outside, zero⟩ := text
    exact ⟨outside, (changes.load outside).trans zero⟩
  | cons b rest ih =>
    obtain ⟨outside, byte, nonzero, later⟩ := text
    exact ⟨outside, (changes.load outside).trans byte, nonzero, ih later⟩

theorem load32_congr {a : Nat} (outside : ∀ i < 4, (a + i) % 2 ^ 32 ∉ W) (changes : ChangesOnly W m m') :
    load32 m' a = load32 m a := by
  have first := changes.load (outside 0 (by decide))
  rw [Nat.add_zero] at first
  simp only [load32, first, changes.load (outside 1 (by decide)), changes.load (outside 2 (by decide)),
    changes.load (outside 3 (by decide))]

theorem Slot.congr {a : Nat} {arg : Arg} (slot : Slot W m a arg) (changes : ChangesOnly W m m') : Slot W m' a arg := by
  obtain ⟨outside, value⟩ := slot
  have word := load32_congr outside changes
  refine ⟨outside, ?_⟩
  cases arg with
  | str s =>
    show CString W m' (load32 m' a) s
    rw [word]
    exact value.congr changes
  | chr c =>
    have byte := changes.load (outside 0 (by decide))
    exact byte.trans value
  | int v => exact word.trans value

theorem Supplies.congr {ap : Nat} {args : List Arg} (supplies : Supplies W m ap args) (changes : ChangesOnly W m m') :
    Supplies W m' ap args := by
  induction args generalizing ap with
  | nil => trivial
  | cons arg rest ih => exact ⟨supplies.1.congr changes, ih supplies.2⟩

theorem store_inside {a : Nat} {b : UInt8} (inside : a % 2 ^ 32 ∈ W) : ChangesOnly W m (store m a b) := by
  intro x outside
  apply if_neg
  rintro rfl
  exact outside inside

theorem strlenLoop_at {a fuel : Nat} {s : List UInt8} (text : CString W m a s) (enough : s.length < fuel) :
    strlenLoop fuel m a = some (a + s.length + 1) := by
  induction s generalizing a fuel with
  | nil =>
    cases fuel with
    | zero => omega
    | succ fuel => rw [strlenLoop, if_pos text.2, List.length_nil]
  | cons b rest ih =>
    cases fuel with
    | zero => omega
    | succ fuel =>
      obtain ⟨-, byte, nonzero, later⟩ := text
      rw [strlenLoop, if_neg (by rw [byte]; exact nonzero), ih later (Nat.lt_of_succ_lt_succ enough), List.length_cons]
      congr 1
      omega

theorem strcpy_at {dst src fuel : Nat} {s : List UInt8} (text : CString W m src s)
    (inside : ∀ k ≤ s.length, (dst + k) % 2 ^ 32 ∈ W) (enough : s.length < fuel) :
    strcpy fuel m dst src = some (writeAll m dst (s ++ [0])) := by
  induction s generalizing m dst src fuel with
  | nil =>
    cases fuel with
    | zero => omega
    | succ fuel =>
      obtain ⟨-, zero⟩ := text
      simp only [strcpy, zero, if_true]
      rfl
  | cons b rest ih =>
    cases fuel with
    | zero => omega
    | succ fuel =>
      obtain ⟨-, byte, nonzero, later⟩ := text
      have here : dst % 2 ^ 32 ∈ W := inside 0 (Nat.zero_le _)
      simp only [strcpy, byte, if_neg nonzero]
      rw [ih (later.congr (store_inside here)) _ (Nat.lt_of_succ_lt_succ enough)]
      · rfl
      · intro k within
        rw [Nat.add_assoc, Nat.add_comm 1]
        exact inside (k + 1) (Nat.succ_le_succ within)

/-! Digits. -/

theorem digitChar_eq (d : Nat) (m : Memory) (out : Nat) :
    (if d < 10 then (store m out (UInt8.ofNat (d + (ch '0').toNat)), out + 1)
      else (store m out (UInt8.ofNat (d - 10 + (ch 'A').toNat)), out + 1)) = (store m out (digitChar d), out + 1) := by
  unfold digitChar
  split <;> rfl

theorem numeral_step {base : Nat} (big : 1 < base) (n : Nat) :
    numeral base n = (if n / base ≠ 0 then numeral base (n / base) else []) ++ [digitChar (n % base)] := by
  by_cases zero : n = 0
  · subst zero
    rw [Nat.zero_div, Nat.zero_mod]
    rfl
  · rw [numeral, if_neg zero, Nat.digits_def' big (Nat.pos_of_ne_zero zero), List.reverse_cons, List.map_append]
    by_cases single : n / base = 0
    · rw [single, Nat.digits_zero]
      rfl
    · rw [numeral, if_neg single, if_pos single]
      rfl

theorem itoa_unfold (base : Nat) (big : 1 < base) (value : Nat) (m : Memory) (out : Nat) :
    itoa base big value m out =
      let r := if value / base ≠ 0 then itoa base big (value / base) m out else (m, out)
      (store r.1 r.2 (digitChar (value % base)), r.2 + 1) := by
  rw [itoa, dite_eq_ite]
  generalize (if value / base ≠ 0 then itoa base big (value / base) m out else (m, out)) = r
  obtain ⟨m, out⟩ := r
  exact digitChar_eq (value % base) m out

/-- The recursion writes the numeral and leaves the cursor behind it. -/
theorem itoa_eq (base : Nat) (big : 1 < base) (value : Nat) (m : Memory) (out : Nat) :
    itoa base big value m out = (writeAll m out (numeral base value), out + (numeral base value).length) := by
  induction value using Nat.strong_induction_on generalizing m out with
  | _ value ih =>
    rw [itoa_unfold, numeral_step big]
    by_cases single : value / base = 0
    · rw [if_neg (not_not_intro single), if_neg (not_not_intro single)]
      rfl
    · have smaller : value / base < value := by
        apply Nat.div_lt_self _ big
        apply Nat.pos_of_ne_zero
        rintro rfl
        exact single (Nat.zero_div base)
      rw [if_pos single, if_pos single, ih _ smaller, writeAll_append, List.length_append]
      rfl

/-- The sign test of `%d`, on the word. -/
theorem decimal_eq (v : BitVec 32) :
    decimal v = if 2 ^ 31 ≤ v.toNat then ch '-' :: numeral 10 ((2 ^ 32 - v.toNat) % 2 ^ 32) else numeral 10 v.toNat := by
  have bound := v.isLt
  have value := BitVec.toInt_eq_toNat_cond v
  unfold decimal
  by_cases negative : 2 ^ 31 ≤ v.toNat
  · rw [if_neg (by omega)] at value
    have size : v.toInt.natAbs = (2 ^ 32 - v.toNat) % 2 ^ 32 := by
      rw [value]
      omega
    rw [if_pos negative, if_pos (by rw [value]; omega), size]
  · rw [if_pos (by omega)] at value
    rw [if_neg negative, if_neg (by rw [value]; omega), value, Int.natAbs_natCast]

/-! The switch and the loop. -/

/-- What is inside a range stays inside behind its first `n` bytes. -/
theorem inside_after {out n more total : Nat} (inside : ∀ k ≤ total, (out + k) % 2 ^ 32 ∈ W) (room : n + more ≤ total) :
    ∀ k ≤ more, (out + n + k) % 2 ^ 32 ∈ W := by
  intro k within
  rw [Nat.add_assoc]
  exact inside (n + k) (by omega)

theorem writeAll_inside {out : Nat} {bytes : List UInt8} (inside : ∀ k < bytes.length, (out + k) % 2 ^ 32 ∈ W) :
    ChangesOnly W m (writeAll m out bytes) := by
  induction bytes generalizing m out with
  | nil => exact ChangesOnly.refl W m
  | cons b rest ih =>
    have here : out % 2 ^ 32 ∈ W := inside 0 (Nat.succ_pos _)
    apply (store_inside here).trans
    apply ih
    intro k within
    rw [Nat.add_assoc, Nat.add_comm 1]
    exact inside (k + 1) (Nat.succ_lt_succ within)

/-- What a pass has done: the characters are there, up to a NUL behind them. -/
structure Printed (W : Set Nat) (m m' : Memory) (out : Nat) (written : List UInt8) : Prop where
  pending : Pending (writeAll m out written) m' (out + written.length)
  changes : ChangesOnly W m m'

theorem printed_writeAll {out : Nat} {written : List UInt8} (inside : ∀ k ≤ written.length, (out + k) % 2 ^ 32 ∈ W) :
    Printed W m (writeAll m out written) out written := by
  constructor
  · exact Pending.refl _ _
  · apply writeAll_inside
    intro k within
    exact inside k within.le

/-- One percent pair, when the format asks for an argument that is there. -/
theorem conversion_at {c : UInt8} {args later : List Arg} {written : List UInt8} {out ap fuel : Nat}
    (printed : convert c args = some (written, later)) (supplies : Supplies W m ap args)
    (inside : ∀ k ≤ written.length, (out + k) % 2 ^ 32 ∈ W) (small : written.length < 2 ^ 32)
    (enough : written.length < fuel) :
    ∃ m' ap', conversion fuel c m out ap = some (m', out + written.length, ap') ∧ Printed W m m' out written ∧
      Supplies W m' ap' later := by
  unfold convert at printed
  by_cases isS : c = ch 's'
  · rw [if_pos isS] at printed
    cases args with
    | nil => cases printed
    | cons arg rest =>
      cases arg with
      | chr | int => cases printed
      | str s =>
        obtain ⟨rfl, rfl⟩ := Prod.mk.inj (Option.some.inj printed)
        have text : CString W m (load32 m (ap + 4)) s := supplies.1.2
        have copied := strcpy_at text inside enough
        have changes : ChangesOnly W m (writeAll m out (s ++ [0])) := by
          apply writeAll_inside
          intro k within
          rw [List.length_append, List.length_singleton] at within
          exact inside k (Nat.le_of_lt_succ within)
        have measured := strlenLoop_at (text.congr changes) enough
        have length : (load32 m (ap + 4) + s.length + 1 - load32 m (ap + 4) - 1) % 2 ^ 32 = s.length := by
          rw [show load32 m (ap + 4) + s.length + 1 - load32 m (ap + 4) - 1 = s.length by omega, Nat.mod_eq_of_lt small]
        refine ⟨writeAll m out (s ++ [0]), ap + 4, ?_, ⟨?_, changes⟩, supplies.2.congr changes⟩
        · simp only [conversion, if_pos isS, copied, Option.bind_some, strlen, measured, Option.map_some, length]
        · rw [writeAll_append]
          exact pending_store _ _ 0
  · rw [if_neg isS] at printed
    by_cases isC : c = ch 'c'
    · rw [if_pos isC] at printed
      cases args with
      | nil => cases printed
      | cons arg rest =>
        cases arg with
        | str | int => cases printed
        | chr b =>
          obtain ⟨rfl, rfl⟩ := Prod.mk.inj (Option.some.inj printed)
          have byte : load m (ap + 4) = b := supplies.1.2
          have done := printed_writeAll (m := m) inside
          refine ⟨_, ap + 4, ?_, done, supplies.2.congr done.changes⟩
          simp only [conversion, if_neg isS, if_pos isC, byte]
          rfl
    · rw [if_neg isC] at printed
      by_cases isD : c = ch 'd'
      · rw [if_pos isD] at printed
        cases args with
        | nil => cases printed
        | cons arg rest =>
          cases arg with
          | str | chr => cases printed
          | int v =>
            obtain ⟨rfl, rfl⟩ := Prod.mk.inj (Option.some.inj printed)
            have word : load32 m (ap + 4) = v.toNat := supplies.1.2
            have done := printed_writeAll (m := m) inside
            refine ⟨_, ap + 4, ?_, done, supplies.2.congr done.changes⟩
            simp only [conversion, if_neg isS, if_neg isC, if_pos isD, word, decimal_eq]
            by_cases negative : 2 ^ 31 ≤ v.toNat
            · simp only [if_pos negative, itoa_eq, List.length_cons, writeAll]
              rw [Nat.add_assoc, Nat.add_comm 1]
            · simp only [if_neg negative, itoa_eq]
      · rw [if_neg isD] at printed
        by_cases isX : c = ch 'x'
        · rw [if_pos isX] at printed
          cases args with
          | nil => cases printed
          | cons arg rest =>
            cases arg with
            | str | chr => cases printed
            | int v =>
              obtain ⟨rfl, rfl⟩ := Prod.mk.inj (Option.some.inj printed)
              have word : load32 m (ap + 4) = v.toNat := supplies.1.2
              have done := printed_writeAll (m := m) inside
              refine ⟨_, ap + 4, ?_, done, supplies.2.congr done.changes⟩
              simp only [conversion, if_neg isS, if_neg isC, if_neg isD, if_pos isX, word, itoa_eq]
        · rw [if_neg isX] at printed
          obtain ⟨rfl, rfl⟩ := Prod.mk.inj (Option.some.inj printed)
          refine ⟨m, ap, ?_, printed_writeAll inside, supplies⟩
          simp only [conversion, if_neg isS, if_neg isC, if_neg isD, if_neg isX]
          rfl

theorem Printed.append {m'' : Memory} {out : Nat} {left right : List UInt8} (first : Printed W m m' out left)
    (second : Printed W m' m'' (out + left.length) right) : Printed W m m'' out (left ++ right) := by
  constructor
  · rw [writeAll_append, List.length_append, ← Nat.add_assoc]
    exact (first.pending.writeAll right).trans second.pending
  · exact first.changes.trans second.changes

theorem vsprintfLoop_end {out format ap fuel passes : Nat} (source : CString W m format []) (turns : 0 < passes) :
    vsprintfLoop fuel passes m out format ap = some (m, out) := by
  cases passes with
  | zero => omega
  | succ passes => rw [vsprintfLoop, if_pos source.2]

theorem vsprintfLoop_plain {c : UInt8} {rest : List UInt8} {out format ap fuel passes : Nat}
    (source : CString W m format (c :: rest)) (plain : ¬c = ch '%') :
    vsprintfLoop fuel (passes + 1) m out format ap =
      vsprintfLoop fuel passes (store m out c) (out + 1) (format + 1) ap := by
  obtain ⟨-, byte, nonzero, -⟩ := source
  rw [vsprintfLoop]
  simp only [byte, if_neg nonzero, if_pos plain]

theorem vsprintfLoop_pair {d : UInt8} {rest : List UInt8} {out format ap fuel passes : Nat}
    (source : CString W m format (ch '%' :: d :: rest)) :
    vsprintfLoop fuel (passes + 1) m out format ap = (conversion fuel d m out ap).bind fun r =>
      vsprintfLoop fuel passes r.1 r.2.1 (format + 2) r.2.2 := by
  obtain ⟨-, byte, nonzero, -, byte', -⟩ := source
  rw [vsprintfLoop]
  simp only [byte, byte', if_neg nonzero, not_true_eq_false, ne_eq, if_false]

/-- The loop prints the text: induction over the format, a character or a percent pair at a time. -/
theorem vsprintfLoop_at {fmt text : List UInt8} {args : List Arg} {out format ap fuel passes : Nat}
    (rendered : render fmt args = some text) (source : CString W m format fmt) (supplies : Supplies W m ap args)
    (inside : ∀ k ≤ text.length, (out + k) % 2 ^ 32 ∈ W) (small : text.length < 2 ^ 32) (enough : text.length < fuel)
    (turns : fmt.length < passes) :
    ∃ m', vsprintfLoop fuel passes m out format ap = some (m', out + text.length) ∧ Printed W m m' out text := by
  induction fmt, args using render.induct generalizing text m out format ap passes with
  | case1 args =>
    rw [render] at rendered
    obtain rfl := Option.some.inj rendered
    exact ⟨m, vsprintfLoop_end source turns, printed_writeAll inside⟩
  | case2 args =>
    rw [render, if_pos rfl] at rendered
    cases rendered
  | case3 c args plain =>
    rw [render, if_neg plain] at rendered
    obtain rfl := Option.some.inj rendered
    have done := printed_writeAll (m := m) inside
    obtain ⟨passes, rfl⟩ := Nat.exists_eq_add_of_lt turns
    refine ⟨_, ?_, done⟩
    rw [vsprintfLoop_plain source plain]
    exact vsprintfLoop_end (source.2.2.2.congr done.changes) (by simp)
  | case4 d rest args ih =>
    rw [render, if_pos rfl] at rendered
    obtain ⟨⟨written, later⟩, printed, rest_rendered⟩ := Option.bind_eq_some_iff.mp rendered
    obtain ⟨behind, rendered', rfl⟩ := Option.map_eq_some_iff.mp rest_rendered
    rw [List.length_append] at inside small enough
    rw [List.length_cons, List.length_cons] at turns
    obtain ⟨passes, rfl⟩ := Nat.exists_eq_add_of_lt turns
    have inside_written : ∀ k ≤ written.length, (out + k) % 2 ^ 32 ∈ W := fun k within => inside k (by omega)
    obtain ⟨m', ap', converted, first, supplies'⟩ := conversion_at printed supplies inside_written (by omega)
      (show written.length < fuel by omega)
    have inside' : ∀ k ≤ behind.length, (out + written.length + k) % 2 ^ 32 ∈ W := inside_after inside le_rfl
    obtain ⟨m'', looped, second⟩ := ih later rendered' (source.2.2.2.2.2.2.congr first.changes) supplies' inside'
      (by omega) (by omega) (show rest.length < rest.length + 1 + 1 + passes by omega)
    refine ⟨m'', ?_, first.append second⟩
    rw [vsprintfLoop_pair source, converted, Option.bind_some, List.length_append, ← Nat.add_assoc]
    exact looped
  | case5 c d rest args plain ih =>
    rw [render, if_neg plain] at rendered
    obtain ⟨behind, rendered', rfl⟩ := Option.map_eq_some_iff.mp rendered
    rw [List.length_cons] at inside small enough
    rw [List.length_cons] at turns
    obtain ⟨passes, rfl⟩ := Nat.exists_eq_add_of_lt turns
    have first : Printed W m (writeAll m out [c]) out [c] := by
      apply printed_writeAll
      intro k within
      exact inside k (within.trans (by simp))
    have inside' : ∀ k ≤ behind.length, (out + 1 + k) % 2 ^ 32 ∈ W := inside_after inside (by omega)
    obtain ⟨m'', looped, second⟩ := ih rendered' (source.2.2.2.congr first.changes) (supplies.congr first.changes) inside'
      (by omega) (by omega) (show (d :: rest).length < (d :: rest).length + 1 + passes by omega)
    have length : out + (c :: behind).length = out + 1 + behind.length := by
      rw [List.length_cons]
      omega
    refine ⟨m'', ?_, first.append second⟩
    rw [vsprintfLoop_plain source plain, length]
    exact looped

/-- The bytes from `str` on that a text of this length and its NUL take. -/
def outputCells (str n : Nat) : Set Nat := {a | ∃ k ≤ n, a = (str + k) % 2 ^ 32}

/-- A text that leaves room for anything else is shorter than the address space. -/
theorem text_small {str n a : Nat} (outside : a % 2 ^ 32 ∉ outputCells str n) : n + 1 < 2 ^ 32 := by
  by_contra large
  exact outside ⟨distance a str, by unfold distance; omega, by unfold distance; omega⟩

theorem vsprintf_text {m : Memory} {str format ap : Nat} {fmt text : List UInt8} {args : List Arg}
    (rendered : render fmt args = some text) (source : CString (outputCells str text.length) m format fmt)
    (supplies : Supplies (outputCells str text.length) m ap args) {fuel : Nat} (turns : fmt.length < fuel)
    (enough : text.length < fuel) :
    vsprintf fuel m str format ap = some (writeAll m str (text ++ [0]), text.length) := by
  have room : ∃ a, a % 2 ^ 32 ∉ outputCells str text.length := by
    cases fmt with
    | nil => exact ⟨format, source.1⟩
    | cons c rest => exact ⟨format, source.1⟩
  obtain ⟨a, outside⟩ := room
  have small := text_small outside
  obtain ⟨m', looped, printed⟩ := vsprintfLoop_at rendered source supplies (fun k within => ⟨k, within, rfl⟩)
    (by omega) enough turns
  have terminated := printed.pending 0
  rw [vsprintf, looped, Option.map_some, Nat.add_sub_cancel_left, Nat.mod_eq_of_lt (by omega), terminated, writeAll_append]
  rfl

/-- `vsprintf` leaves the text and a NUL at `str`, changes nothing else and returns the length. -/
theorem vsprintf_renders (m : Memory) (str format ap : Nat) (fmt : List UInt8) (args : List Arg) (text : List UInt8)
    (rendered : render fmt args = some text) (source : CString (outputCells str text.length) m format fmt)
    (supplies : Supplies (outputCells str text.length) m ap args) :
    ∀ fuel, fmt.length < fuel → text.length < fuel →
      vsprintf fuel m str format ap = some (writeAll m str (text ++ [0]), text.length) := by
  intro fuel turns enough
  exact vsprintf_text rendered source supplies turns enough

theorem cString_of_bytes {a : Nat} {s : List UInt8} (outside : ∀ k ≤ s.length, (a + k) % 2 ^ 32 ∉ W)
    (bytes : ∀ k < s.length, load m (a + k) = s.getD k 0 ∧ s.getD k 0 ≠ 0) (nul : load m (a + s.length) = 0) :
    CString W m a s := by
  induction s generalizing a with
  | nil => exact ⟨outside 0 le_rfl, nul⟩
  | cons b rest ih =>
    have first := bytes 0 (Nat.succ_pos _)
    refine ⟨outside 0 (Nat.zero_le _), first.1, first.2, ih ?_ ?_ ?_⟩
    · intro k within
      rw [Nat.add_assoc, Nat.add_comm 1]
      exact outside (k + 1) (Nat.succ_le_succ within)
    · intro k within
      rw [Nat.add_assoc, Nat.add_comm 1]
      exact bytes (k + 1) (Nat.succ_lt_succ within)
    · rw [List.length_cons] at nul
      rw [Nat.add_assoc, Nat.add_comm 1]
      exact nul

theorem not_mem_outputCells {str n a : Nat} (fits : str + n < 2 ^ 32) (below : a < str) :
    a % 2 ^ 32 ∉ outputCells str n := by
  intro ⟨k, within, same⟩
  omega

def sampleFormat : List UInt8 := "%d 0x%x %s%y%c".toList.map ch

def sampleText : List UInt8 := "-2147483648 0xBEEF abS".toList.map ch

/-- The format at 0x100, the slots of `INT_MIN`, `0xBEEF`, `"ab"` and `'S'` from 0x204 on, the string at 0x300. -/
def sampleMemory : Memory := fun a =>
  if a < 0x200 then sampleFormat.getD (a - 0x100) 0
  else if a < 0x300 then
    [0x00, 0x00, 0x00, 0x80, 0xEF, 0xBE, 0x00, 0x00, 0x00, 0x03, 0x00, 0x00, ch 'S', 0x00, 0x00, 0x00].getD (a - 0x204) 0
  else [ch 'a', ch 'b', 0].getD (a - 0x300) 0

def sampleArgs : List Arg := [.int (BitVec.ofNat 32 0x80000000), .int (BitVec.ofNat 32 0xBEEF), .str [ch 'a', ch 'b'], .chr (ch 'S')]

theorem vsprintf_renders_sample :
    vsprintf 100 sampleMemory 0x400 0x100 0x200 = some (writeAll sampleMemory 0x400 (sampleText ++ [0]), 22) := by
  have low : ∀ a < 0x400, a % 2 ^ 32 ∉ outputCells 0x400 22 := fun a below => not_mem_outputCells (by decide) below
  have slots : ∀ a < 0x300, ∀ i < 4, (a + i) % 2 ^ 32 ∉ outputCells 0x400 22 := fun a below i inside => low (a + i) (by omega)
  apply vsprintf_renders sampleMemory 0x400 0x100 0x200 sampleFormat sampleArgs sampleText
  · decide +kernel
  · apply cString_of_bytes
    · intro k within
      have length : sampleFormat.length = 14 := by decide
      exact low _ (by omega)
    · decide +kernel
    · decide +kernel
  · refine ⟨⟨slots _ (by decide), by decide +kernel⟩, ⟨slots _ (by decide), by decide +kernel⟩,
      ⟨slots _ (by decide), ?_⟩, ⟨slots _ (by decide), by decide +kernel⟩, trivial⟩
    have pointer : load32 sampleMemory (0x200 + 4 + 4 + 4) = 0x300 := by decide +kernel
    show CString _ sampleMemory (load32 sampleMemory (0x200 + 4 + 4 + 4)) _
    rw [pointer]
    apply cString_of_bytes
    · intro k within
      exact low _ (by simp at within; omega)
    · decide +kernel
    · decide +kernel
  · decide
  · decide

end KOS.Stdio
