import KOS.Stdio

/-! `print.s`: `put_char` and `put_str` on the 80x25 text buffer. The cursor is read from the CRTC before each
character and written back behind it. -/

namespace KOS.Print
open KOS.ByteMemory KOS.LinkMemory KOS.Stdio

/-! The base and the limit of `video_desc`. -/

def videoBase : Nat := 0xC00B8000
def videoLimit : Nat := 0x7FFF

structure Console where
  memory : Memory
  /-- The CRTC register that port 0x3D5 stands for. -/
  index : UInt8
  high : UInt8
  low : UInt8
  /-- Every linear address of video memory written or copied so far, the last one first. -/
  touched : List Nat

namespace Console

def cursor (c : Console) : Nat := c.high.toNat * 256 + c.low.toNat

/-- `out dx, al`. -/
def out (c : Console) (dx : Nat) (al : UInt8) : Console :=
  if dx = 0x03d4 then { c with index := al }
  else if c.index = 0x0e then { c with high := al }
  else if c.index = 0x0f then { c with low := al }
  else c

/-- `in al, dx`, after one of the two indices. -/
def in_ (c : Console) : UInt8 := if c.index = 0x0e then c.high else c.low

/-- `bx`. -/
def getCursor (c : Console) : Console × Nat :=
  let c := c.out 0x03d4 0x0e
  let bh := c.in_
  let c := c.out 0x03d4 0x0f
  let bl := c.in_
  (c, bh.toNat * 256 + bl.toNat)

/-- `.set_cursor`. -/
def setCursor (c : Console) (bx : Nat) : Console :=
  let c := c.out 0x03d4 0x0e
  let c := c.out 0x03d5 (UInt8.ofNat (bx / 256))
  let c := c.out 0x03d4 0x0f
  c.out 0x03d5 (UInt8.ofNat bx)

/-- `mov byte [gs:offset], v`; `none` is the fault beyond the limit. -/
def gsStore (c : Console) (offset : Nat) (v : UInt8) : Option Console :=
  if offset ≤ videoLimit then
    some { c with memory := store c.memory (videoBase + offset) v, touched := (videoBase + offset) :: c.touched }
  else none

/-- The character and its attribute. -/
def cell (c : Console) (bx : Nat) (char : UInt8) : Option Console :=
  (c.gsStore bx char).bind fun c => c.gsStore ((bx + 1) % 2 ^ 16) 0x07

/-- `rep movsb`, on flat segments. -/
def repMovsb : Nat → Console → Nat → Nat → Console
  | 0, c, _, _ => c
  | ecx + 1, c, esi, edi =>
    repMovsb ecx { c with memory := store c.memory edi (load c.memory esi), touched := edi :: esi :: c.touched }
      ((esi + 1) % 2 ^ 32) ((edi + 1) % 2 ^ 32)

def clsLoop : Nat → Console → Nat → Option Console
  | 0, c, _ => some c
  | ecx + 1, c, bx => (c.cell bx 0x20).bind fun c => clsLoop ecx c ((bx + 2) % 2 ^ 16)

def rollScreen (c : Console) : Option Console :=
  (clsLoop 80 (c.repMovsb 3840 0xc00b80a0 0xc00b8000) 3840).map fun c => c.setCursor 1920

/-- `cmp bx, 2000` and `jl`, a signed comparison. -/
def checkRollScreen (c : Console) (bx : Nat) : Option Console :=
  if (bx : Int).bmod (2 ^ 16) < 2000 then some (c.setCursor bx) else c.rollScreen

end Console

open Console

def putChar (c : Console) (cl : UInt8) : Option Console :=
  let (c, bx) := c.getCursor
  if cl = 0x8 then
    let bx := (bx + 2 ^ 16 - 1) % 2 ^ 16
    let bx := bx * 2 % 2 ^ 16
    (c.cell bx 0x20).map fun c => c.setCursor (bx / 2)
  else if cl = 0xd ∨ cl = 0xa then
    let dx := bx % 80
    let bx := (bx + 2 ^ 16 - dx) % 2 ^ 16
    let bx := (bx + 80) % 2 ^ 16
    c.checkRollScreen bx
  else
    let bx := bx * 2 % 2 ^ 16
    (c.cell bx cl).bind fun c => c.checkRollScreen ((bx / 2 + 1) % 2 ^ 16)

def putChars : Console → List UInt8 → Option Console
  | c, [] => some c
  | c, cl :: rest => (putChar c cl).bind fun c => putChars c rest

/-- `put_str` after at most so many characters, and whether it has returned. -/
def putStr : Nat → Console → Nat → Option (Console × Bool)
  | 0, c, _ => some (c, false)
  | passes + 1, c, ebx =>
    let cl := load c.memory ebx
    if cl = 0 then some (c, true)
    else (putChar c cl).bind fun c => putStr passes c (ebx + 1)

/-! What the console is for. -/

/-- Where the cursor goes: back, to the head of the next line, or on; below the last line it is the head of that line. -/
def advance (cursor : Nat) (char : UInt8) : Nat :=
  if char = 0x8 then cursor - 1
  else
    let next := if char = 0xd ∨ char = 0xa then (cursor / 80 + 1) * 80 else cursor + 1
    if next < 2000 then next else 1920

/-- No backspace comes when the cursor is on the first cell. -/
def NoBackspaceHome : Nat → List UInt8 → Prop
  | _, [] => True
  | cursor, char :: rest => ¬(char = 0x8 ∧ cursor = 0) ∧ NoBackspaceHome (advance cursor char) rest

/-- Nothing but the 4000 bytes of the text buffer was touched. -/
def Console.Shown (c : Console) : Prop := ∀ a ∈ c.touched, videoBase ≤ a ∧ a < videoBase + 4000

def Console.OnScreen (c : Console) : Prop := c.cursor < 2000 ∧ c.Shown

theorem advance_lt {cursor : Nat} {char : UInt8} (bound : cursor < 2000) : advance cursor char < 2000 := by
  have clipped (next : Nat) : (if next < 2000 then next else 1920) < 2000 := by
    split <;> omega
  unfold advance
  by_cases back : char = 0x8
  · rw [if_pos back]
    omega
  · rw [if_neg back]
    exact clipped _

/-! What the parts of `put_char` do. -/

namespace Console
variable {c c' : Console} {offset bx : Nat} {char : UInt8}

theorem getCursor_eq (c : Console) : c.getCursor = ({ c with index := 0x0f }, c.cursor) := rfl

theorem setCursor_cursor (fits : bx < 2 ^ 16) : (c.setCursor bx).cursor = bx := by
  have high : (UInt8.ofNat (bx / 256)).toNat = bx / 256 % 2 ^ 8 := UInt8.toNat_ofNat'
  have low : (UInt8.ofNat bx).toNat = bx % 2 ^ 8 := UInt8.toNat_ofNat'
  show (UInt8.ofNat (bx / 256)).toNat * 256 + (UInt8.ofNat bx).toNat = bx
  omega

theorem setCursor_memory (c : Console) (bx : Nat) : (c.setCursor bx).memory = c.memory := rfl

theorem cell_eq (fits : offset < videoLimit) :
    c.cell offset char = some
      { c with
        memory := store (store c.memory (videoBase + offset) char) (videoBase + (offset + 1)) 0x07
        touched := (videoBase + (offset + 1)) :: (videoBase + offset) :: c.touched } := by
  have wraps : (offset + 1) % 2 ^ 16 = offset + 1 := Nat.mod_eq_of_lt (by unfold videoLimit at fits; omega)
  unfold cell gsStore
  rw [if_pos fits.le, Option.bind_some, wraps, if_pos (Nat.succ_le_of_lt fits)]

theorem cell_fault (beyond : ¬offset < videoLimit) : c.cell offset char = none := by
  unfold cell gsStore
  by_cases last : offset ≤ videoLimit
  · have same : offset = videoLimit := Nat.le_antisymm last (Nat.not_lt.mp beyond)
    rw [if_pos last, Option.bind_some, same]
    rfl
  · rw [if_neg last, Option.bind_none]

/-- Two more addresses of the text buffer. -/
theorem Shown.touch {a b : Nat} {m : Memory} (shown : c.Shown) (first : videoBase ≤ a ∧ a < videoBase + 4000)
    (second : videoBase ≤ b ∧ b < videoBase + 4000) : { c with memory := m, touched := a :: b :: c.touched }.Shown := by
  intro x touched
  cases touched with
  | head => exact first
  | tail _ touched =>
    cases touched with
    | head => exact second
    | tail _ touched => exact shown x touched

theorem cell_shown {k : Nat} (inside : k < 2000) :
    ∃ c', c.cell (k * 2) char = some c' ∧ (c.Shown → c'.Shown) := by
  refine ⟨_, cell_eq (by unfold videoLimit; omega), ?_⟩
  exact fun shown => shown.touch (by omega) (by omega)

theorem repMovsb_shown {n esi edi : Nat} (source : videoBase ≤ esi ∧ esi + n ≤ videoBase + 4000)
    (target : videoBase ≤ edi ∧ edi + n ≤ videoBase + 4000) (shown : c.Shown) : (repMovsb n c esi edi).Shown := by
  induction n generalizing c esi edi with
  | zero => exact shown
  | succ n ih =>
    have next {a : Nat} (inside : a + 1 ≤ videoBase + 4000) : (a + 1) % 2 ^ 32 = a + 1 :=
      Nat.mod_eq_of_lt (by unfold videoBase at inside; omega)
    rw [repMovsb, next (by omega), next (by omega)]
    exact ih (by omega) (by omega) (shown.touch (by omega) (by omega))

theorem clsLoop_shown {n k : Nat} (inside : k + n ≤ 2000) :
    ∃ c', clsLoop n c (k * 2) = some c' ∧ (c.Shown → c'.Shown) := by
  induction n generalizing c k with
  | zero => exact ⟨c, rfl, id⟩
  | succ n ih =>
    obtain ⟨d, cleared, one⟩ := @cell_shown c 0x20 k (by omega)
    obtain ⟨c', looped, more⟩ := @ih d (k + 1) (by omega)
    have next : (k * 2 + 2) % 2 ^ 16 = (k + 1) * 2 := by omega
    refine ⟨c', ?_, more ∘ one⟩
    rw [clsLoop, cleared, Option.bind_some, next, looped]

/-- A scroll never fails, and leaves the cursor at the head of the last line. -/
theorem rollScreen_shown (c : Console) :
    ∃ c', c.rollScreen = some c' ∧ c'.cursor = 1920 ∧ (c.Shown → c'.Shown) := by
  obtain ⟨d, cleared, shown⟩ := @clsLoop_shown (c.repMovsb 3840 0xc00b80a0 0xc00b8000) 80 1920 (by decide)
  refine ⟨d.setCursor 1920, ?_, setCursor_cursor (by decide), ?_⟩
  · rw [rollScreen, cleared, Option.map_some]
  · exact shown ∘ repMovsb_shown (by decide) (by decide)

theorem checkRollScreen_shown (c : Console) (fits : bx < 2 ^ 15) :
    ∃ c', c.checkRollScreen bx = some c' ∧ c'.cursor = (if bx < 2000 then bx else 1920) ∧ (c.Shown → c'.Shown) := by
  have signed : (bx : Int).bmod (2 ^ 16) = bx := Int.bmod_eq_of_le (by omega) (by omega)
  unfold checkRollScreen
  rw [signed]
  by_cases above : bx < 2000
  · rw [if_pos (by omega), if_pos above]
    exact ⟨_, rfl, setCursor_cursor (by omega), id⟩
  · rw [if_neg (by omega), if_neg above]
    exact rollScreen_shown c

/-! Memory outside the segment is left alone. -/

def segment : Set Nat := Set.Icc videoBase (videoBase + videoLimit)

theorem mem_segment {a : Nat} (low : videoBase ≤ a) (high : a ≤ videoBase + videoLimit) : a % 2 ^ 32 ∈ segment := by
  have small : a < 2 ^ 32 := high.trans_lt (by decide)
  rw [Nat.mod_eq_of_lt small]
  exact ⟨low, high⟩

theorem cell_changes (ran : c.cell offset char = some c') : ChangesOnly segment c.memory c'.memory := by
  by_cases fits : offset < videoLimit
  · rw [cell_eq fits] at ran
    rw [← Option.some.inj ran]
    apply (store_inside _).trans (store_inside _)
    · exact mem_segment (by omega) (by omega)
    · exact mem_segment (by omega) (by omega)
  · rw [cell_fault fits] at ran
    cases ran

theorem clsLoop_changes {n : Nat} (ran : clsLoop n c bx = some c') : ChangesOnly segment c.memory c'.memory := by
  induction n generalizing c bx with
  | zero =>
    rw [← Option.some.inj ran]
    exact ChangesOnly.refl _ _
  | succ n ih =>
    obtain ⟨d, cleared, looped⟩ := Option.bind_eq_some_iff.mp ran
    exact (cell_changes cleared).trans (ih looped)

theorem repMovsb_changes {n esi edi : Nat} (low : videoBase ≤ edi) (high : edi + n ≤ videoBase + videoLimit) :
    ChangesOnly segment c.memory (repMovsb n c esi edi).memory := by
  induction n generalizing c esi edi with
  | zero => exact ChangesOnly.refl _ _
  | succ n ih =>
    have next : (edi + 1) % 2 ^ 32 = edi + 1 := Nat.mod_eq_of_lt (by unfold videoBase videoLimit at high; omega)
    rw [repMovsb, next]
    apply ChangesOnly.trans _ (ih _ _)
    · exact store_inside (mem_segment low (by omega))
    · omega
    · omega

theorem checkRollScreen_changes (ran : c.checkRollScreen bx = some c') : ChangesOnly segment c.memory c'.memory := by
  unfold checkRollScreen at ran
  by_cases above : (bx : Int).bmod (2 ^ 16) < 2000
  · rw [if_pos above] at ran
    rw [← Option.some.inj ran]
    exact ChangesOnly.refl _ _
  · rw [if_neg above] at ran
    obtain ⟨d, cleared, same⟩ := Option.map_eq_some_iff.mp ran
    rw [← same, setCursor_memory]
    apply (repMovsb_changes _ _).trans (clsLoop_changes cleared)
    · decide
    · decide

end Console

/-! `put_char` and `put_str`. -/

section
variable {c : Console} {char : UInt8}

theorem putChar_backspace (c : Console) :
    putChar c 0x8 = (({ c with index := 0x0f } : Console).cell ((c.cursor + 2 ^ 16 - 1) % 2 ^ 16 * 2 % 2 ^ 16) 0x20).map
      fun d => d.setCursor ((c.cursor + 2 ^ 16 - 1) % 2 ^ 16 * 2 % 2 ^ 16 / 2) := by
  unfold putChar
  rw [getCursor_eq]
  show (if (0x8 : UInt8) = 0x8 then _ else _) = _
  rw [if_pos rfl]

theorem putChar_lineEnd (c : Console) (control : char ≠ 0x8) (lineEnd : char = 0xd ∨ char = 0xa) :
    putChar c char =
      ({ c with index := 0x0f } : Console).checkRollScreen (((c.cursor + 2 ^ 16 - c.cursor % 80) % 2 ^ 16 + 80) % 2 ^ 16) := by
  unfold putChar
  rw [getCursor_eq]
  show (if char = 0x8 then _ else _) = _
  rw [if_neg control, if_pos lineEnd]

theorem putChar_print (c : Console) (control : char ≠ 0x8) (lineEnd : ¬(char = 0xd ∨ char = 0xa)) :
    putChar c char = (({ c with index := 0x0f } : Console).cell (c.cursor * 2 % 2 ^ 16) char).bind
      fun d => d.checkRollScreen ((c.cursor * 2 % 2 ^ 16 / 2 + 1) % 2 ^ 16) := by
  unfold putChar
  rw [getCursor_eq]
  show (if char = 0x8 then _ else _) = _
  rw [if_neg control, if_neg lineEnd]

/-- One character: where it leaves the cursor. -/
theorem putChar_onScreen (onScreen : c.OnScreen) (stays : ¬(char = 0x8 ∧ c.cursor = 0)) :
    ∃ c', putChar c char = some c' ∧ c'.OnScreen ∧ c'.cursor = advance c.cursor char := by
  have bound := onScreen.1
  have next : advance c.cursor char < 2000 := advance_lt bound
  have arrives {c' : Console} (cursor : c'.cursor = advance c.cursor char) (shown : c.Shown → c'.Shown) :
      c'.OnScreen ∧ c'.cursor = advance c.cursor char := by
    refine ⟨⟨?_, shown onScreen.2⟩, cursor⟩
    rwa [cursor]
  by_cases back : char = 0x8
  · have positive : c.cursor ≠ 0 := fun zero => stays ⟨back, zero⟩
    have before : (c.cursor + 2 ^ 16 - 1) % 2 ^ 16 * 2 % 2 ^ 16 = (c.cursor - 1) * 2 := by omega
    obtain ⟨d, cleared, shown⟩ := @cell_shown { c with index := 0x0f } 0x20 (c.cursor - 1) (by omega)
    refine ⟨d.setCursor (c.cursor - 1), ?_, arrives ?_ shown⟩
    · rw [back, putChar_backspace, before, cleared, Option.map_some, Nat.mul_div_cancel _ Nat.two_pos]
    · rw [setCursor_cursor (by omega), advance, if_pos back]
  by_cases lineEnd : char = 0xd ∨ char = 0xa
  · have head : ((c.cursor + 2 ^ 16 - c.cursor % 80) % 2 ^ 16 + 80) % 2 ^ 16 = (c.cursor / 80 + 1) * 80 := by omega
    obtain ⟨c', checked, cursor, shown⟩ :=
      @checkRollScreen_shown ((c.cursor / 80 + 1) * 80) { c with index := 0x0f } (by omega)
    refine ⟨c', ?_, arrives ?_ shown⟩
    · rw [putChar_lineEnd c back lineEnd, head, checked]
    · rw [cursor, advance, if_neg back, if_pos lineEnd]
  · have here : c.cursor * 2 % 2 ^ 16 = c.cursor * 2 := by omega
    have behind : (c.cursor * 2 / 2 + 1) % 2 ^ 16 = c.cursor + 1 := by omega
    obtain ⟨d, written, one⟩ := @cell_shown { c with index := 0x0f } char c.cursor bound
    obtain ⟨c', checked, cursor, shown⟩ := @checkRollScreen_shown (c.cursor + 1) d (by omega)
    refine ⟨c', ?_, arrives ?_ (shown ∘ one)⟩
    · rw [putChar_print c back lineEnd, here, written, Option.bind_some, behind, checked]
    · rw [cursor, advance, if_neg back, if_neg lineEnd]

/-- A printable character needs no more than that its cell lies in the segment. -/
theorem putChar_returns (control : char ≠ 0x8) (lineEnd : ¬(char = 0xd ∨ char = 0xa)) (reach : c.cursor < 0x4000) :
    ∃ c', putChar c char = some c' ∧ c'.cursor < 0x4000 := by
  have here : c.cursor * 2 % 2 ^ 16 = c.cursor * 2 := by omega
  have behind : (c.cursor * 2 / 2 + 1) % 2 ^ 16 = c.cursor + 1 := by omega
  have written := @cell_eq { c with index := 0x0f } (c.cursor * 2) char (by unfold videoLimit; omega)
  rw [putChar_print c control lineEnd, here, written, Option.bind_some, behind]
  have fits : c.cursor + 1 < 2 ^ 15 := by omega
  obtain ⟨c', checked, cursor, -⟩ := checkRollScreen_shown _ fits
  refine ⟨c', checked, ?_⟩
  rw [cursor]
  split <;> omega

theorem putChar_changes {c' : Console} (ran : putChar c char = some c') : ChangesOnly segment c.memory c'.memory := by
  by_cases back : char = 0x8
  · rw [back, putChar_backspace] at ran
    obtain ⟨d, cleared, same⟩ := Option.map_eq_some_iff.mp ran
    rw [← same, setCursor_memory]
    exact @cell_changes { c with index := 0x0f } d _ _ cleared
  by_cases lineEnd : char = 0xd ∨ char = 0xa
  · rw [putChar_lineEnd c back lineEnd] at ran
    exact @checkRollScreen_changes { c with index := 0x0f } c' _ ran
  · rw [putChar_print c back lineEnd] at ran
    obtain ⟨d, written, checked⟩ := Option.bind_eq_some_iff.mp ran
    exact (cell_changes written).trans (checkRollScreen_changes checked)

/-- At the first cell a backspace clears `gs:0xFFFE`, beyond the limit of the segment. -/
theorem putChar_home (home : c.cursor = 0) : putChar c 0x8 = none := by
  rw [putChar_backspace, home, cell_fault (by decide), Option.map_none]

end

/-- After each of the bytes the console is on the screen. -/
def Throughout (start : Console) (bytes : List UInt8) : Prop :=
  ∀ done, done <+: bytes → ∃ c, putChars start done = some c ∧ c.OnScreen

theorem throughout_cons {start : Console} {char : UInt8} {rest : List UInt8} (onScreen : start.OnScreen) :
    Throughout start (char :: rest) ↔ ∃ c, putChar start char = some c ∧ Throughout c rest := by
  constructor
  · intro all
    obtain ⟨c, one, -⟩ := all [char] ⟨rest, rfl⟩
    obtain ⟨c, ran, -⟩ := Option.bind_eq_some_iff.mp one
    refine ⟨c, ran, ?_⟩
    intro done before
    obtain ⟨d, later, shown⟩ := all (char :: done) (List.prefix_cons_inj char |>.mpr before)
    rw [putChars, ran] at later
    exact ⟨d, later, shown⟩
  · intro ⟨c, ran, all⟩ done before
    cases done with
    | nil => exact ⟨start, rfl, onScreen⟩
    | cons first done =>
      obtain ⟨same, before⟩ := List.cons_prefix_cons.mp before
      rw [same, putChars, ran]
      exact all done before

theorem throughout_iff {start : Console} {bytes : List UInt8} (onScreen : start.OnScreen) :
    Throughout start bytes ↔ NoBackspaceHome start.cursor bytes := by
  induction bytes generalizing start with
  | nil =>
    apply iff_of_true _ trivial
    intro done before
    rw [List.prefix_nil.mp before]
    exact ⟨start, rfl, onScreen⟩
  | cons char rest ih =>
    rw [throughout_cons onScreen]
    by_cases stays : char = 0x8 ∧ start.cursor = 0
    · apply iff_of_false
      · intro ⟨c, ran, _⟩
        rw [stays.1, putChar_home stays.2] at ran
        cases ran
      · exact fun never => never.1 stays
    · obtain ⟨c, ran, onScreen', cursor⟩ := putChar_onScreen onScreen stays
      rw [ran]
      constructor
      · intro ⟨d, same, all⟩
        rw [← Option.some.inj same] at all
        refine ⟨stays, ?_⟩
        rw [← cursor]
        exact (ih onScreen').mp all
      · intro never
        refine ⟨c, rfl, (ih onScreen').mpr ?_⟩
        rw [cursor]
        exact never.2

/-- However far `put_str` comes, what it passes is a sequence of bytes, one in each of its passes. -/
theorem putStr_passes (passes : Nat) (start : Console) (message : Nat) :
    ∃ passed : List UInt8, ∀ k ≤ passes, (putStr k start message).map Prod.fst = putChars start (passed.take k) := by
  induction passes generalizing start message with
  | zero =>
    refine ⟨[], ?_⟩
    intro k none_
    rw [Nat.le_zero.mp none_]
    rfl
  | succ passes ih =>
    by_cases nul : load start.memory message = 0
    · refine ⟨[], ?_⟩
      intro k _
      cases k with
      | zero => rfl
      | succ k =>
        rw [putStr, if_pos nul]
        rfl
    · cases ran : putChar start (load start.memory message) with
      | none =>
        refine ⟨[load start.memory message], ?_⟩
        intro k _
        cases k with
        | zero => rfl
        | succ k =>
          rw [putStr, if_neg nul, ran, List.take_succ_cons, putChars, ran]
          rfl
      | some c =>
        obtain ⟨passed, same⟩ := ih c (message + 1)
        refine ⟨load start.memory message :: passed, ?_⟩
        intro k more
        cases k with
        | zero => rfl
        | succ k =>
          rw [putStr, if_neg nul, ran, List.take_succ_cons, putChars, ran]
          exact same k (Nat.le_of_succ_le_succ more)

/-- A string that is not on the screen is passed to `put_char` from its first to its last byte. -/
theorem putStr_text {start : Console} {message : Nat} {text : List UInt8}
    (string : CString segment start.memory message text) {passes : Nat} (enough : text.length < passes) :
    putStr passes start message = (putChars start text).map fun c => (c, true) := by
  induction passes generalizing start message text with
  | zero => exact absurd enough (Nat.not_lt_zero _)
  | succ passes ih =>
    cases text with
    | nil => rw [putStr, if_pos string.2]; rfl
    | cons char rest =>
      obtain ⟨-, byte, nonzero, later⟩ := string
      rw [putStr, byte, if_neg nonzero, putChars]
      cases ran : putChar start char with
      | none => rfl
      | some c =>
        have later := later.congr (putChar_changes ran)
        exact ih later (Nat.lt_of_succ_lt_succ enough)

/-- From any cursor and screen, over every sequence of bytes, whether a caller passes them or `put_str`. -/
theorem console_iff (start : Console) (onScreen : start.OnScreen) :
    (∀ bytes, Throughout start bytes ↔ NoBackspaceHome start.cursor bytes) ∧
      ∀ passes message, ∃ passed : List UInt8, ∀ k ≤ passes, (putStr k start message).map Prod.fst = putChars start (passed.take k) :=
  ⟨fun _ => throughout_iff onScreen, fun passes message => putStr_passes passes start message⟩

/-- A cleared screen. -/
def cleared : Console := { memory := fun _ => 0, index := 0, high := 0, low := 0, touched := [] }

theorem cleared_onScreen : cleared.OnScreen := ⟨by decide, fun _ touched => absurd touched List.not_mem_nil⟩

theorem console_iff_cleared : Throughout cleared [ch 'B', 0x8] ∧ ¬Throughout cleared [ch 'B', 0x8, 0x8] := by
  have iff_ := (console_iff cleared cleared_onScreen).1
  apply And.intro
  · exact (iff_ _).mpr ⟨by decide, by decide, trivial⟩
  · exact fun all => ((iff_ _).mp all).2.2.1 (by decide)

/-- The first cell and a backspace. -/
theorem backspace_home : cleared.OnScreen ∧ putChar cleared 0x8 = none ∧ ¬Throughout cleared [0x8] := by
  have fault : putChar cleared 0x8 = none := putChar_home rfl
  refine ⟨cleared_onScreen, fault, ?_⟩
  intro all
  obtain ⟨c, ran, -⟩ := all [0x8] (List.prefix_refl _)
  rw [putChars, fault] at ran
  cases ran

end KOS.Print
