import KOS.Print
import KOS.StringCopy

/-! `cls_screen`, and what the screen shows: a window of 25 lines that moves down an endless strip of cells. -/

namespace KOS.Screen
open KOS.ByteMemory KOS.LinkMemory KOS.Stdio KOS.StringCopy KOS.Print KOS.Print.Console

def clsScreen (c : Console) : Option Console := (clsLoop 2000 c 0).map fun c => c.setCursor 0

/-- The character in cell `i` of the screen. -/
def glyph (c : Console) (i : Nat) : UInt8 := load c.memory (videoBase + i * 2)

def attr (c : Console) (i : Nat) : UInt8 := load c.memory (videoBase + (i * 2 + 1))

/-! What is printed, line after line of 80 cells, and the 25 lines on view. -/

structure Strip where
  cells : Nat → UInt8
  pos : Nat
  top : Nat

namespace Strip

def empty : Strip := ⟨fun _ => 0x20, 0, 0⟩

/-- The window moves down when the position has left it. -/
def follow (s : Strip) : Strip := if s.pos < (s.top + 25) * 80 then s else { s with top := s.top + 1 }

def put (s : Strip) (char : UInt8) : Strip :=
  if char = 0x8 then { s with cells := Function.update s.cells (s.pos - 1) 0x20, pos := s.pos - 1 }
  else if char = 0xd ∨ char = 0xa then follow { s with pos := (s.pos / 80 + 1) * 80 }
  else follow { s with cells := Function.update s.cells s.pos char, pos := s.pos + 1 }

end Strip

/-- The cells of the window; nothing is printed below it yet. -/
structure Matches (c : Console) (s : Strip) : Prop where
  window : ∀ i < 2000, glyph c i = s.cells (s.top * 80 + i)
  colour : ∀ i < 2000, attr c i = 0x07
  below : ∀ j, (s.top + 25) * 80 ≤ j → s.cells j = 0x20

structure Shows (c : Console) (s : Strip) : Prop extends Matches c s where
  place : s.top * 80 + c.cursor = s.pos
  onScreen : c.cursor < 2000

variable {c c' d : Console} {s : Strip} {char : UInt8} {bx k n : Nat}

/-! The screen, cell by cell. -/

theorem glyph_address {i : Nat} (inside : i < 2000) : (videoBase + i * 2) % 2 ^ 32 = videoBase + i * 2 :=
  Nat.mod_eq_of_lt (by unfold videoBase; omega)

theorem attr_address {i : Nat} (inside : i < 2000) :
    (videoBase + (i * 2 + 1)) % 2 ^ 32 = videoBase + (i * 2 + 1) :=
  Nat.mod_eq_of_lt (by unfold videoBase; omega)

theorem cell_at (c : Console) (char : UInt8) (inside : k < 2000) :
    ∃ d, c.cell (k * 2) char = some d ∧ ∀ i < 2000,
      glyph d i = (if i = k then char else glyph c i) ∧ attr d i = if i = k then 0x07 else attr c i := by
  refine ⟨_, cell_eq (by unfold videoLimit; omega), ?_⟩
  intro i within
  unfold glyph attr
  simp only [load_store, glyph_address within, attr_address within, glyph_address inside, attr_address inside]
  apply And.intro
  · rw [if_neg (by omega)]
    by_cases same : i = k
    · rw [if_pos same, if_pos (by rw [same])]
    · rw [if_neg same, if_neg (by omega)]
  · by_cases same : i = k
    · rw [if_pos same, if_pos (by rw [same])]
    · rw [if_neg same, if_neg (by omega), if_neg (by omega)]

theorem clsLoop_clears (c : Console) (inside : k + n ≤ 2000) :
    ∃ d, clsLoop n c (k * 2) = some d ∧ ∀ i < 2000,
      glyph d i = (if k ≤ i ∧ i < k + n then 0x20 else glyph c i) ∧
        attr d i = if k ≤ i ∧ i < k + n then 0x07 else attr c i := by
  induction n generalizing c k with
  | zero =>
    refine ⟨c, rfl, ?_⟩
    intro i _
    have none_ : ¬(k ≤ i ∧ i < k + 0) := by omega
    rw [if_neg none_, if_neg none_]
    exact ⟨rfl, rfl⟩
  | succ n ih =>
    obtain ⟨d, written, cells⟩ := cell_at c 0x20 (show k < 2000 by omega)
    obtain ⟨e, looped, later⟩ := @ih (k + 1) d (by omega)
    have next : (k * 2 + 2) % 2 ^ 16 = (k + 1) * 2 := by omega
    refine ⟨e, ?_, ?_⟩
    · rw [clsLoop, written, Option.bind_some, next, looped]
    · intro i within
      rw [(later i within).1, (later i within).2, (cells i within).1, (cells i within).2]
      by_cases covered : k ≤ i ∧ i < k + (n + 1)
      · rw [if_pos covered, if_pos covered]
        by_cases rest : k + 1 ≤ i ∧ i < k + 1 + n
        · rw [if_pos rest, if_pos rest]
          exact ⟨rfl, rfl⟩
        · have first : i = k := by omega
          rw [if_neg rest, if_neg rest, if_pos first, if_pos first]
          exact ⟨rfl, rfl⟩
      · have rest : ¬(k + 1 ≤ i ∧ i < k + 1 + n) := by omega
        have other : i ≠ k := by omega
        rw [if_neg covered, if_neg covered, if_neg rest, if_neg rest, if_neg other, if_neg other]
        exact ⟨rfl, rfl⟩

/-- The copy of the scroll is a `memcpy` to a lower address. -/
theorem repMovsb_memcpy (n : Nat) (c : Console) (esi edi : Nat) :
    (repMovsb n c esi edi).memory = memcpy c.memory edi esi n := by
  induction n generalizing c esi edi with
  | zero => rfl
  | succ n ih =>
    rw [repMovsb, ih, memcpy, memcpy_forward, memcpy_forward]
    congr 1
    · funext i
      unfold StringCopy.place
      omega
    · funext i
      unfold StringCopy.place
      omega

theorem repMovsb_rolls (c : Console) {x : Nat} (inside : x < 4000) :
    load (repMovsb 3840 c 0xc00b80a0 0xc00b8000).memory (videoBase + x) =
      if x < 3840 then load c.memory (videoBase + (x + 160)) else load c.memory (videoBase + x) := by
  rw [repMovsb_memcpy]
  by_cases moved : x < 3840
  · have far : distance 0xc00b8000 0xc00b80a0 = 2 ^ 32 - 160 := by decide
    have copied := @memcpy_load c.memory 0xc00b8000 0xc00b80a0 3840 x (by decide) moved
    rw [far, Nat.mod_eq_of_lt (by omega)] at copied
    rw [if_pos moved]
    apply copied.trans
    apply load_congr
    unfold videoBase
    omega
  · rw [if_neg moved]
    apply load_memcpy_other
    intro i before
    unfold StringCopy.place videoBase
    omega

theorem rollScreen_rolls (c : Console) :
    ∃ d, c.rollScreen = some d ∧ d.cursor = 1920 ∧ ∀ i < 2000,
      glyph d i = (if i < 1920 then glyph c (i + 80) else 0x20) ∧
        attr d i = if i < 1920 then attr c (i + 80) else 0x07 := by
  obtain ⟨d, cleared, cells⟩ := @clsLoop_clears 1920 80 (c.repMovsb 3840 0xc00b80a0 0xc00b8000) (by decide)
  refine ⟨d.setCursor 1920, ?_, setCursor_cursor (by decide), ?_⟩
  · rw [rollScreen, cleared, Option.map_some]
  · intro i within
    show glyph d i = _ ∧ attr d i = _
    rw [(cells i within).1, (cells i within).2]
    by_cases moved : i < 1920
    · have above : ¬(1920 ≤ i ∧ i < 1920 + 80) := by omega
      rw [if_neg above, if_neg above, if_pos moved, if_pos moved]
      have rolls {x : Nat} (early : x < 3840) :
          load (repMovsb 3840 c 0xc00b80a0 0xc00b8000).memory (videoBase + x) = load c.memory (videoBase + (x + 160)) := by
        rw [repMovsb_rolls c (by omega), if_pos early]
      unfold glyph attr
      rw [rolls (by omega), rolls (by omega)]
      apply And.intro
      · exact congrArg (fun x => load c.memory (videoBase + x)) (by omega)
      · exact congrArg (fun x => load c.memory (videoBase + x)) (by omega)
    · have last : 1920 ≤ i ∧ i < 1920 + 80 := by omega
      rw [if_pos last, if_pos last, if_neg moved, if_neg moved]
      exact ⟨rfl, rfl⟩

/-! The strip, character by character. -/

/-- The window moves down one line. -/
theorem rollScreen_shows (cells : Matches c s) (place : s.top * 80 + 2000 = s.pos) :
    ∃ d, c.rollScreen = some d ∧ Shows d { s with top := s.top + 1 } := by
  have below : ∀ j, (s.top + 1 + 25) * 80 ≤ j → s.cells j = 0x20 := by
    intro j later
    apply cells.below
    exact le_trans (Nat.mul_le_mul_right 80 (by omega)) later
  obtain ⟨d, rolled, cursor, moved⟩ := rollScreen_rolls c
  have window : ∀ i < 2000, glyph d i = s.cells ((s.top + 1) * 80 + i) := by
    intro i within
    rw [(moved i within).1]
    by_cases kept : i < 1920
    · rw [if_pos kept, cells.window _ (by omega)]
      exact congrArg s.cells (by omega)
    · rw [if_neg kept, cells.below _ (by omega)]
  have colour : ∀ i < 2000, attr d i = 0x07 := by
    intro i within
    rw [(moved i within).2]
    by_cases kept : i < 1920
    · rw [if_pos kept, cells.colour _ (by omega)]
    · rw [if_neg kept]
  refine ⟨d, rolled, ⟨window, colour, below⟩, ?_, ?_⟩
  · rw [cursor]
    show (s.top + 1) * 80 + 1920 = s.pos
    omega
  · rw [cursor]
    decide

theorem checkRollScreen_shows (cells : Matches c s) (place : s.top * 80 + bx = s.pos) (fits : bx ≤ 2000) :
    ∃ d, c.checkRollScreen bx = some d ∧ Shows d s.follow := by
  have signed : (bx : Int).bmod (2 ^ 16) = bx := Int.bmod_eq_of_le (by omega) (by omega)
  unfold checkRollScreen Strip.follow
  rw [signed]
  by_cases above : bx < 2000
  · have cursor : (c.setCursor bx).cursor = bx := setCursor_cursor (by omega)
    rw [if_pos (by omega), if_pos (by omega)]
    refine ⟨_, rfl, ⟨cells.window, cells.colour, cells.below⟩, ?_, ?_⟩
    · rw [cursor]
      exact place
    · rw [cursor]
      exact above
  · rw [if_neg (by omega), if_neg (by omega)]
    apply rollScreen_shows cells
    omega

/-- One character on the screen is one character on the strip. -/
theorem putChar_shows (shows_ : Shows c s) (stays : ¬(char = 0x8 ∧ c.cursor = 0)) :
    ∃ d, putChar c char = some d ∧ Shows d (s.put char) := by
  have place := shows_.place
  have bound := shows_.onScreen
  have written (k : Nat) (b : UInt8) (inside : k < 2000) (e : Console) (same : e.memory = c.memory) :
      ∃ d, e.cell (k * 2) b = some d ∧ ∀ p, Matches d { s with cells := Function.update s.cells (s.top * 80 + k) b, pos := p } := by
    obtain ⟨d, ran, cells⟩ := cell_at e b inside
    refine ⟨d, ran, fun p => ⟨?_, ?_, ?_⟩⟩
    · intro i within
      rw [(cells i within).1]
      show _ = Function.update s.cells (s.top * 80 + k) b (s.top * 80 + i)
      by_cases here : i = k
      · rw [if_pos here, here, Function.update_self]
      · rw [if_neg here, Function.update_of_ne (by omega), ← shows_.window i within]
        unfold glyph
        rw [same]
    · intro i within
      rw [(cells i within).2]
      by_cases here : i = k
      · rw [if_pos here]
      · rw [if_neg here, ← shows_.colour i within]
        unfold attr
        rw [same]
    · intro j later
      have later : (s.top + 25) * 80 ≤ j := later
      show Function.update s.cells (s.top * 80 + k) b j = 0x20
      rw [Function.update_of_ne (by omega)]
      exact shows_.below j later
  unfold Strip.put
  by_cases back : char = 0x8
  · have positive : c.cursor ≠ 0 := fun zero => stays ⟨back, zero⟩
    have before : (c.cursor + 2 ^ 16 - 1) % 2 ^ 16 * 2 % 2 ^ 16 = (c.cursor - 1) * 2 := by omega
    obtain ⟨d, ran, cells⟩ := written (c.cursor - 1) 0x20 (by omega) { c with index := 0x0f } rfl
    have cursor : (d.setCursor (c.cursor - 1)).cursor = c.cursor - 1 := setCursor_cursor (by omega)
    have spot : s.top * 80 + (c.cursor - 1) = s.pos - 1 := by omega
    rw [if_pos back, back, putChar_backspace, before, ran, Option.map_some, Nat.mul_div_cancel _ Nat.two_pos, ← spot]
    have cells := cells (s.top * 80 + (c.cursor - 1))
    refine ⟨_, rfl, ⟨cells.window, cells.colour, cells.below⟩, ?_, ?_⟩
    · rw [cursor]
    · rw [cursor]
      omega
  by_cases lineEnd : char = 0xd ∨ char = 0xa
  · have head : ((c.cursor + 2 ^ 16 - c.cursor % 80) % 2 ^ 16 + 80) % 2 ^ 16 = (c.cursor / 80 + 1) * 80 := by omega
    rw [if_neg back, if_pos lineEnd, putChar_lineEnd c back lineEnd, head]
    have cells : Matches { c with index := 0x0f } { s with pos := (s.pos / 80 + 1) * 80 } :=
      ⟨shows_.window, shows_.colour, shows_.below⟩
    apply checkRollScreen_shows cells
    · show s.top * 80 + (c.cursor / 80 + 1) * 80 = (s.pos / 80 + 1) * 80
      omega
    · omega
  · have here : c.cursor * 2 % 2 ^ 16 = c.cursor * 2 := by omega
    have behind : (c.cursor * 2 / 2 + 1) % 2 ^ 16 = c.cursor + 1 := by omega
    obtain ⟨d, ran, cells⟩ := written c.cursor char bound { c with index := 0x0f } rfl
    rw [if_neg back, if_neg lineEnd, putChar_print c back lineEnd, here, ran, Option.bind_some, behind]
    rw [place] at cells
    apply checkRollScreen_shows (cells _)
    · show s.top * 80 + (c.cursor + 1) = s.pos + 1
      omega
    · omega

/-- What a character does to the cursor. -/
theorem put_cursor (shows_ : Shows c s) (shows' : Shows d (s.put char)) : d.cursor = advance c.cursor char := by
  have place := shows_.place
  have place' := shows'.place
  have bound := shows_.onScreen
  unfold Strip.put at place'
  unfold advance
  by_cases back : char = 0x8
  · rw [if_pos back] at place' ⊢
    have place' : s.top * 80 + d.cursor = s.pos - 1 := place'
    omega
  rw [if_neg back] at place' ⊢
  have followed {p : Nat} {cells : Nat → UInt8} (at_ : (Strip.follow ⟨cells, p, s.top⟩).top * 80 + d.cursor =
      (Strip.follow ⟨cells, p, s.top⟩).pos) (near : p ≤ (s.top + 25) * 80) :
      d.cursor = if p - s.top * 80 < 2000 then p - s.top * 80 else 1920 := by
    unfold Strip.follow at at_
    by_cases inside : p < (s.top + 25) * 80
    · rw [if_pos inside] at at_
      have at_ : s.top * 80 + d.cursor = p := at_
      rw [if_pos (by omega)]
      omega
    · rw [if_neg inside] at at_
      have at_ : (s.top + 1) * 80 + d.cursor = p := at_
      rw [if_neg (by omega)]
      omega
  by_cases lineEnd : char = 0xd ∨ char = 0xa
  · rw [if_pos lineEnd] at place' ⊢
    rw [followed place' (by omega)]
    have head : (s.pos / 80 + 1) * 80 - s.top * 80 = (c.cursor / 80 + 1) * 80 := by omega
    rw [head]
  · rw [if_neg lineEnd] at place' ⊢
    rw [followed place' (by omega)]
    have next : s.pos + 1 - s.top * 80 = c.cursor + 1 := by omega
    rw [next]

/-- A text on the screen is the text on the strip. -/
theorem putChars_shows {text : List UInt8} (shows_ : Shows c s) (home : NoBackspaceHome c.cursor text) :
    ∃ d, putChars c text = some d ∧ Shows d (text.foldl Strip.put s) := by
  induction text generalizing c s with
  | nil => exact ⟨c, rfl, shows_⟩
  | cons char rest ih =>
    obtain ⟨d, ran, next⟩ := putChar_shows shows_ home.1
    have later : NoBackspaceHome d.cursor rest := by
      rw [put_cursor shows_ next]
      exact home.2
    obtain ⟨e, looped, last⟩ := ih next later
    refine ⟨e, ?_, last⟩
    rw [putChars, ran, Option.bind_some, looped]

/-- `put_str` of any string refines printing on the strip: from every screen, cursor and scroll position, with line
ends and backspaces anywhere but at the first cell. -/
theorem putStr_shows {text : List UInt8} {message passes : Nat} (shows_ : Shows c s)
    (string : CString Console.segment c.memory message text) (home : NoBackspaceHome c.cursor text)
    (enough : text.length < passes) :
    ∃ d, putStr passes c message = some (d, true) ∧ Shows d (text.foldl Strip.put s) := by
  obtain ⟨d, ran, last⟩ := putChars_shows shows_ home
  refine ⟨d, ?_, last⟩
  rw [putStr_text string enough, ran, Option.map_some]

/-! A text on a cleared screen. -/

theorem clsScreen_shows (c : Console) :
    ∃ d, clsScreen c = some d ∧ Shows d Strip.empty ∧ ChangesOnly Console.segment c.memory d.memory := by
  obtain ⟨d, cleared, cells⟩ := @clsLoop_clears 0 2000 c (by decide)
  have cursor : (d.setCursor 0).cursor = 0 := setCursor_cursor (by decide)
  have changes : ChangesOnly Console.segment c.memory d.memory := clsLoop_changes cleared
  refine ⟨d.setCursor 0, ?_, ⟨⟨?_, ?_, fun j _ => rfl⟩, ?_, ?_⟩, changes⟩
  · rw [clsScreen, cleared, Option.map_some]
  · intro i within
    exact (cells i within).1.trans (if_pos ⟨Nat.zero_le i, by omega⟩)
  · intro i within
    exact (cells i within).2.trans (if_pos ⟨Nat.zero_le i, by omega⟩)
  · rw [cursor]
    rfl
  · rw [cursor]
    decide

/-- The cells that a text without backspaces fills: a line end fills up its line. -/
def fillCells (filled : List UInt8) (char : UInt8) : List UInt8 :=
  if char = 0xd ∨ char = 0xa then filled ++ List.replicate (80 - filled.length % 80) 0x20 else filled ++ [char]

def unroll (text : List UInt8) : List UInt8 := text.foldl fillCells []

/-- The strip that holds these cells, the window as high as it can stand. -/
def stripOf (filled : List UInt8) : Strip :=
  ⟨fun j => filled.getD j 0x20, filled.length, filled.length / 80 - 24⟩

theorem getD_append_blank (filled more : List UInt8) (blank : ∀ b ∈ more, b = 0x20) (j : Nat) :
    (filled ++ more).getD j 0x20 = filled.getD j 0x20 := by
  by_cases inside : j < filled.length
  · exact List.getD_append _ _ _ _ inside
  · rw [List.getD_append_right _ _ _ _ (Nat.not_lt.mp inside), List.getD_eq_default _ _ (Nat.not_lt.mp inside)]
    by_cases within : j - filled.length < more.length
    · rw [List.getD_eq_getElem _ _ within]
      exact blank _ (List.getElem_mem within)
    · exact List.getD_eq_default _ _ (Nat.not_lt.mp within)

theorem getD_append_last (filled : List UInt8) (char : UInt8) (j : Nat) :
    (filled ++ [char]).getD j 0x20 = Function.update (fun i => filled.getD i 0x20) filled.length char j := by
  by_cases here : j = filled.length
  · rw [here, Function.update_self, List.getD_append_right _ _ _ _ le_rfl, Nat.sub_self]
    rfl
  · rw [Function.update_of_ne here]
    by_cases inside : j < filled.length
    · exact List.getD_append _ _ _ _ inside
    · rw [List.getD_append_right _ _ _ _ (Nat.not_lt.mp inside), List.getD_eq_default _ _ (Nat.not_lt.mp inside)]
      apply List.getD_eq_default
      rw [List.length_singleton]
      omega

/-- The window stays as high as it can stand. -/
theorem follow_top {cells : Nat → UInt8} {p q : Nat} (near : q ≤ (p / 80 + 1) * 80) (forward : p ≤ q) :
    Strip.follow ⟨cells, q, p / 80 - 24⟩ = ⟨cells, q, q / 80 - 24⟩ := by
  have moved : (if q < (p / 80 - 24 + 25) * 80 then p / 80 - 24 else p / 80 - 24 + 1) = q / 80 - 24 := by
    split_ifs <;> omega
  unfold Strip.follow
  rw [← moved]
  show (if q < (p / 80 - 24 + 25) * 80 then _ else _) = _
  split_ifs <;> rfl

theorem put_stripOf (filled : List UInt8) (forth : char ≠ 0x8) :
    (stripOf filled).put char = stripOf (fillCells filled char) := by
  unfold Strip.put fillCells stripOf
  rw [if_neg forth]
  by_cases lineEnd : char = 0xd ∨ char = 0xa
  · rw [if_pos lineEnd, if_pos lineEnd]
    have cells : (fun j => (filled ++ List.replicate (80 - filled.length % 80) 0x20).getD j 0x20) =
        fun j => filled.getD j 0x20 := by
      funext j
      exact getD_append_blank _ _ (fun b member => List.eq_of_mem_replicate member) j
    have length : (filled ++ List.replicate (80 - filled.length % 80) 0x20).length = (filled.length / 80 + 1) * 80 := by
      rw [List.length_append, List.length_replicate]
      omega
    rw [cells, length]
    show Strip.follow ⟨_, (filled.length / 80 + 1) * 80, filled.length / 80 - 24⟩ = _
    exact follow_top le_rfl (by omega)
  · rw [if_neg lineEnd, if_neg lineEnd]
    have cells : (fun j => (filled ++ [char]).getD j 0x20) =
        Function.update (fun j => filled.getD j 0x20) filled.length char := by
      funext j
      exact getD_append_last filled char j
    rw [cells, List.length_append, List.length_singleton]
    show Strip.follow ⟨_, filled.length + 1, filled.length / 80 - 24⟩ = _
    exact follow_top (by omega) (Nat.le_succ _)

theorem foldl_stripOf {text : List UInt8} (filled : List UInt8) (forth : 0x8 ∉ text) :
    text.foldl Strip.put (stripOf filled) = stripOf (text.foldl fillCells filled) := by
  induction text generalizing filled with
  | nil => rfl
  | cons char rest ih =>
    have other : char ≠ 0x8 := fun same => forth (same ▸ List.mem_cons_self)
    rw [List.foldl_cons, List.foldl_cons, put_stripOf filled other]
    exact ih _ fun later => forth (List.mem_cons_of_mem _ later)

theorem noBackspace_home {text : List UInt8} (forth : 0x8 ∉ text) (cursor : Nat) : NoBackspaceHome cursor text := by
  induction text generalizing cursor with
  | nil => trivial
  | cons char rest ih =>
    apply And.intro
    · intro both
      exact forth (both.1 ▸ List.mem_cons_self)
    · exact ih (fun later => forth (List.mem_cons_of_mem _ later)) _

/-- `cls_screen` and then `put_str` of a string without backspaces, of any length: the screen holds the last 25 lines
of the text's cells, blanks behind them, all in grey on black, and the cursor stands behind the text. -/
theorem clsScreen_putStr {text : List UInt8} {message passes : Nat} (string : CString Console.segment c.memory message text)
    (forth : 0x8 ∉ text) (enough : text.length < passes) :
    ∃ d, (clsScreen c).bind (fun c => putStr passes c message) = some (d, true) ∧
      ((unroll text).length / 80 - 24) * 80 + d.cursor = (unroll text).length ∧
      ∀ i < 2000, glyph d i = (unroll text).getD (((unroll text).length / 80 - 24) * 80 + i) 0x20 ∧ attr d i = 0x07 := by
  obtain ⟨e, cleared, blank, changes⟩ := clsScreen_shows c
  obtain ⟨d, ran, shown⟩ := putStr_shows blank (string.congr changes) (noBackspace_home forth _) enough
  have strip : text.foldl Strip.put Strip.empty = stripOf (unroll text) := foldl_stripOf [] forth
  rw [strip] at shown
  refine ⟨d, ?_, shown.place, fun i within => ⟨shown.window i within, shown.colour i within⟩⟩
  rw [cleared, Option.bind_some, ran]

/-! Texts in memory. -/

/-- A text up to its first NUL. -/
def upToNul (text : List UInt8) : List UInt8 := text.takeWhile (· ≠ 0)

theorem load_writeAll_below (m : Memory) (a k : Nat) {bytes : List UInt8} (room : bytes.length + k ≤ 2 ^ 32) (positive : 0 < k) :
    load (writeAll m (a + k) bytes) a = load m a := by
  induction bytes generalizing m k with
  | nil => rfl
  | cons b rest ih =>
    rw [List.length_cons] at room
    rw [writeAll, Nat.add_assoc, ih _ _ (by omega) (by omega), load_store, if_neg (by omega)]

theorem load_writeAll (m : Memory) (a : Nat) {bytes : List UInt8} {i : Nat} (fits : bytes.length ≤ 2 ^ 32)
    (inside : i < bytes.length) : load (writeAll m a bytes) (a + i) = bytes.getD i 0 := by
  induction bytes generalizing m a i with
  | nil => exact absurd inside (Nat.not_lt_zero i)
  | cons b rest ih =>
    rw [List.length_cons] at fits inside
    cases i with
    | zero =>
      show load (writeAll (store m a b) (a + 1) rest) a = b
      rw [load_writeAll_below _ a 1 fits Nat.one_pos, load_store, if_pos rfl]
    | succ i =>
      rw [writeAll, Nat.add_comm i, ← Nat.add_assoc, ih _ _ (by omega) (by omega), Nat.add_comm 1]
      rfl

/-- The string that `put_str` finds in a buffer that holds a text and a NUL. -/
theorem cString_upToNul {W : Set Nat} {m : Memory} {a : Nat} {text : List UInt8}
    (outside : ∀ k ≤ text.length, (a + k) % 2 ^ 32 ∉ W) (bytes : ∀ k ≤ text.length, load m (a + k) = (text ++ [0]).getD k 0) :
    CString W m a (upToNul text) := by
  induction text generalizing a with
  | nil => exact ⟨outside 0 le_rfl, bytes 0 le_rfl⟩
  | cons b rest ih =>
    have here : a % 2 ^ 32 ∉ W := outside 0 (Nat.zero_le _)
    have byte : load m a = b := bytes 0 (Nat.zero_le _)
    unfold upToNul
    by_cases nul : b = 0
    · rw [List.takeWhile_cons_of_neg (by simpa using nul)]
      exact ⟨here, byte.trans nul⟩
    · rw [List.takeWhile_cons_of_pos (by simpa using nul)]
      refine ⟨here, byte, nul, ih ?_ ?_⟩
      · intro k within
        rw [Nat.add_assoc, Nat.add_comm 1]
        exact outside (k + 1) (Nat.succ_le_succ within)
      · intro k within
        rw [Nat.add_assoc, Nat.add_comm 1]
        exact bytes (k + 1) (Nat.succ_le_succ within)

theorem upToNul_length (text : List UInt8) : (upToNul text).length ≤ text.length :=
  (List.takeWhile_sublist _).length_le

/-- Thirty lines, five more than the screen has. -/
def banner : List UInt8 := (List.replicate 30 ("K_OS\n".toList.map ch)).flatten

/-- The lines at 0x1000, on a screen of zeros. -/
def greeting : Console := { cleared with memory := writeAll (fun _ => 0) 0x1000 (banner ++ [0]) }

theorem banner_length : banner.length = 150 := by decide +kernel

theorem greeting_string : CString Console.segment greeting.memory 0x1000 banner := by
  have low : ∀ a < videoBase, a % 2 ^ 32 ∉ Console.segment := by
    intro a below inside
    exact absurd inside.1 (Nat.not_le.mpr ((Nat.mod_le _ _).trans_lt below))
  have whole : upToNul banner = banner := by decide +kernel
  rw [← whole]
  apply cString_upToNul
  · intro k within
    rw [banner_length] at within
    apply low
    unfold videoBase
    omega
  · intro k within
    have length : (banner ++ [0]).length = 151 := by rw [List.length_append, banner_length, List.length_singleton]
    rw [banner_length] at within
    exact load_writeAll _ _ (by omega) (by omega)

theorem banner_plain : 0x8 ∉ banner := by decide +kernel

/-- The screen scrolls six lines. -/
theorem clsScreen_greeting : ∃ d, (clsScreen greeting).bind (fun c => putStr 151 c 0x1000) = some (d, true) ∧
    ((unroll banner).length / 80 - 24) * 80 + d.cursor = (unroll banner).length ∧
    ∀ i < 2000, glyph d i = (unroll banner).getD (((unroll banner).length / 80 - 24) * 80 + i) 0x20 ∧ attr d i = 0x07 :=
  clsScreen_putStr greeting_string banner_plain (by rw [banner_length]; decide)

theorem greeting_shows : ∃ c d, Shows c Strip.empty ∧ putStr 151 c 0x1000 = some (d, true) ∧
    Shows d (banner.foldl Strip.put Strip.empty) := by
  obtain ⟨c, -, blank, changes⟩ := clsScreen_shows greeting
  obtain ⟨d, ran, shown⟩ := putStr_shows blank (greeting_string.congr changes) (noBackspace_home banner_plain _)
    (show banner.length < 151 by rw [banner_length]; decide)
  exact ⟨c, d, blank, ran, shown⟩

end KOS.Screen
