import KOS.Guarded
import KOS.Screen

/-! `printk`: a text is made in a buffer of the caller's stack and printed under `printk_lock`. -/

namespace KOS.Printk
open KOS.ByteMemory KOS.LinkMemory KOS.Stdio KOS.Print KOS.Screen KOS.Sync KOS.SyncInvariant KOS.Machine KOS.Serial KOS.Guarded

/-- `printk` up to its `mutex_lock`, with its `char buf[1024]` at `buf`. Between `mutex_lock` and `mutex_unlock` it
calls `put_str` for `buf`, once the thread has the lock. -/
def printkText (fuel : Nat) (m : Memory) (buf format ap : Nat) : Option Memory :=
  (vsprintf fuel (memset m buf 0 1024) buf format ap).map Prod.fst

/-! What one call prints. -/

section Mono
variable {W W' : Set Nat} {m : Memory}

theorem CString.mono {a : Nat} {s : List UInt8} (string : CString W m a s) (less : W' ⊆ W) : CString W' m a s := by
  induction s generalizing a with
  | nil => exact ⟨fun inside => string.1 (less inside), string.2⟩
  | cons b rest ih =>
    obtain ⟨outside, byte, nonzero, later⟩ := string
    exact ⟨fun inside => outside (less inside), byte, nonzero, ih later⟩

theorem Supplies.mono {ap : Nat} {args : List Arg} (supplies : Supplies W m ap args) (less : W' ⊆ W) : Supplies W' m ap args := by
  induction args generalizing ap with
  | nil => trivial
  | cons arg rest ih =>
    obtain ⟨⟨outside, value⟩, later⟩ := supplies
    refine ⟨⟨fun i small inside => outside i small (less inside), ?_⟩, ih later⟩
    cases arg with
    | str s => exact CString.mono value less
    | chr c => exact value
    | int v => exact value

end Mono

/-- The cells of the buffer. -/
def bufCells (buf : Nat) : Set Nat := {x | ∃ k < 1024, x = (buf + k) % 2 ^ 32}

theorem memset_buf (m : Memory) (buf : Nat) : ChangesOnly (bufCells buf) m (memset m buf 0 1024) := by
  intro x outside
  rw [memset_eq_fill]
  apply fill_other
  intro i inside same
  exact outside ⟨i, inside, same⟩

/-- A call whose text fits in the buffer makes that text before it asks for the lock, and changes nothing but its
buffer. Whatever else has been written and printed when it gets the lock, `put_str` then prints the text, up to the first
NUL in it. -/
theorem printk_prints {m : Memory} {buf format ap fuel : Nat} {fmt text : List UInt8} {args : List Arg}
    (rendered : render fmt args = some text) (short : text.length < 1024)
    (source : CString (bufCells buf) m format fmt) (supplies : Supplies (bufCells buf) m ap args)
    (unseen : ∀ x ∈ bufCells buf, x ∉ Console.segment) (turns : fmt.length < fuel) (enough : text.length < fuel) :
    ∃ m', printkText fuel m buf format ap = some m' ∧ ChangesOnly (bufCells buf) m m' ∧
      ∀ c : Console, (∀ x ∈ bufCells buf, c.memory x = m' x) →
        putStr fuel c buf = (putChars c (upToNul text)).map (·, true) := by
  have less : outputCells buf text.length ⊆ bufCells buf := by
    intro x inside
    obtain ⟨k, within, same⟩ := inside
    exact ⟨k, within.trans_lt short, same⟩
  have cleared := memset_buf m buf
  have made := vsprintf_text rendered (CString.mono (source.congr cleared) less) (Supplies.mono (supplies.congr cleared) less)
    turns enough
  have written : ChangesOnly (bufCells buf) (memset m buf 0 1024) (writeAll (memset m buf 0 1024) buf (text ++ [0])) := by
    apply writeAll_inside
    intro k inside
    rw [List.length_append, List.length_singleton] at inside
    exact ⟨k, by omega, rfl⟩
  have bytes : ∀ k ≤ text.length,
      load (writeAll (memset m buf 0 1024) buf (text ++ [0])) (buf + k) = (text ++ [0]).getD k 0 := by
    intro k within
    have length : (text ++ [0]).length = text.length + 1 := by rw [List.length_append, List.length_singleton]
    exact load_writeAll _ _ (by omega) (by omega)
  rw [printkText, made, Option.map_some]
  refine ⟨_, rfl, cleared.trans written, ?_⟩
  intro c own
  have string : CString Console.segment c.memory buf (upToNul text) := by
    apply cString_upToNul
    · intro k within
      exact unseen _ ⟨k, within.trans_lt short, rfl⟩
    · intro k within
      exact (own _ ⟨k, within.trans_lt short, rfl⟩).trans (bytes k within)
  exact putStr_text string ((upToNul_length text).trans_lt enough)

/-- The format and the arguments of `printk("%s=%d\n", "free", 7)`: the slots of the arguments follow 0x3000. -/
def freeFormat : List UInt8 := "%s=%d\n".toList.map ch

def freeMemory : Memory :=
  let m := writeAll (writeAll (fun _ => 0) 0x1000 (freeFormat ++ [0])) 0x1100 ("free".toList.map ch ++ [0])
  store32 (store32 m 0x3004 0x1100) 0x3008 7

theorem freeMemory_prints :
    ∃ m', printkText 10 freeMemory 0x2000 0x1000 0x3000 = some m' ∧ ChangesOnly (bufCells 0x2000) freeMemory m' ∧
      ∀ c : Console, (∀ x ∈ bufCells 0x2000, c.memory x = m' x) →
        putStr 10 c 0x2000 = (putChars c (upToNul ("free=7\n".toList.map ch))).map (·, true) := by
  have low : ∀ x ∈ bufCells 0x2000, 0x2000 ≤ x ∧ x < 0x2400 := by
    intro x inside
    obtain ⟨k, within, same⟩ := inside
    omega
  have away : ∀ a, a < 0x2000 ∨ 0x2400 ≤ a → a < 2 ^ 32 → a % 2 ^ 32 ∉ bufCells 0x2000 := by
    intro a outside small inside
    have place := low _ inside
    omega
  have format : CString (bufCells 0x2000) freeMemory 0x1000 (upToNul freeFormat) := by
    have short : freeFormat.length = 6 := by decide
    apply cString_upToNul
    · intro k within
      exact away _ (by omega) (by omega)
    · decide
  have name : CString (bufCells 0x2000) freeMemory 0x1100 (upToNul ("free".toList.map ch)) := by
    have short : ("free".toList.map ch).length = 4 := by decide
    apply cString_upToNul
    · intro k within
      exact away _ (by omega) (by omega)
    · decide
  have supplies : Supplies (bufCells 0x2000) freeMemory 0x3000 [.str ("free".toList.map ch), .int 7] := by
    refine ⟨⟨fun i small => away _ (by omega) (by omega), ?_⟩, ⟨fun i small => away _ (by omega) (by omega), ?_⟩, trivial⟩
    · exact name
    · decide
  apply printk_prints (by decide) (by decide) format supplies _ (by decide) (by decide)
  intro x inside seen
  have above : videoBase ≤ x := seen.1
  have below := (low x inside).2
  unfold videoBase at above
  omega

/-! Many threads. -/

theorem putChars_foldlM (c : Console) (text : List UInt8) : putChars c text = text.foldlM putChar c := by
  induction text generalizing c with
  | nil => rfl
  | cons char rest ih =>
    rw [putChars, List.foldlM_cons]
    exact Option.bind_congr fun d _ => ih d

/-- A text that came through is on the strip. -/
theorem putChars_strip {c d : Console} {s : Strip} {text : List UInt8} (shows_ : Shows c s)
    (ran : putChars c text = some d) : Shows d (text.foldl Strip.put s) := by
  induction text generalizing c s with
  | nil =>
    rw [← Option.some.inj ran]
    exact shows_
  | cons char rest ih =>
    obtain ⟨e, first, later⟩ := Option.bind_eq_some_iff.mp ran
    by_cases home : char = 0x8 ∧ c.cursor = 0
    · rw [home.1, putChar_home home.2] at first
      cases first
    · obtain ⟨e', first', next⟩ := putChar_shows shows_ home
      have same : e = e' := Option.some.inj (first.symm.trans first')
      rw [same] at later
      exact ih next later

section Threads
variable {κ ι τ : Type*} [DecidableEq κ] [DecidableEq ι] [DecidableEq τ] {printkLock : κ}
  {g g' : Shared κ ι τ Console (List UInt8)} {s : Strip}

/-- Any number of threads call `printk`, preempted between any two characters and inside the lock functions, with
disk interrupts and other locks in between: the screen shows whole messages one after the other and at most a first
part of one more, which is the message of the thread that owns `printk_lock`. Each thread's messages are printed
once each and in the order of its calls. -/
theorem reach_shows (begun : Begun g) (shows_ : Shows g.object s)
    (run : Reach (step (writer putChar) printkLock) (Permitted printkLock) g g') :
    ∃ part : List UInt8, Shows g'.object ((g'.log.flatMap Prod.snd ++ part).foldl Strip.put s) ∧
      (part = [] ∨ ∃ t text rest, g'.doing t = some (text, rest) ∧ g'.kernel.owner printkLock = some t ∧ text = part ++ rest) ∧
      ∀ t, ofThread t g'.called = ofThread t g'.log ++ ((g'.doing t).map Prod.fst).toList := by
  obtain ⟨-, owned, before, sound⟩ := reach_sound begun run
  obtain ⟨history, now, order⟩ := sound.serial owned
  have messages := history.written
  rw [← putChars_foldlM] at messages
  have whole := putChars_strip shows_ messages
  rcases now with same | ⟨t, text, rest, doing, owner, part⟩
  · refine ⟨[], ?_, .inl rfl, order⟩
    rw [same, List.append_nil]
    exact whole
  · obtain ⟨passed, split, ran⟩ := part.written
    rw [← putChars_foldlM] at ran
    refine ⟨passed, ?_, .inr ⟨t, text, rest, doing, owner, split⟩, order⟩
    rw [List.foldl_append]
    exact putChars_strip whole ran

end Threads

/-! Threads 0 and 2: thread 0 is preempted after the first of two characters, thread 2 waits for the lock. -/

def blankConsole : Console :=
  { memory := fun a => if a % 2 = 0 then 0x20 else 0x07, index := 0, high := 0, low := 0, touched := [] }

theorem blankConsole_shows : Shows blankConsole Strip.empty := by
  refine ⟨⟨?_, ?_, fun _ _ => rfl⟩, rfl, by decide⟩
  · intro i within
    show (if (videoBase + i * 2) % 2 ^ 32 % 2 = 0 then (0x20 : UInt8) else 0x07) = 0x20
    rw [glyph_address within, if_pos (by unfold videoBase; omega)]
  · intro i within
    show (if (videoBase + (i * 2 + 1)) % 2 ^ 32 % 2 = 0 then (0x20 : UInt8) else 0x07) = 0x07
    rw [attr_address within, if_neg (by unfold videoBase; omega)]

def pairConsole : Shared Unit Unit Nat Console (List UInt8) :=
  { kernel := pair 0, object := blankConsole, doing := fun _ => none, called := [], log := [] }

theorem pairConsole_begun : Begun pairConsole := ⟨pair_start 0, fun _ => rfl, rfl, rfl⟩

def talk : List (Guarded.Event Unit Unit (List UInt8)) :=
  .call [ch 'A', ch 'B'] :: List.replicate 4 (.lock .exec) ++ .act :: .lock .tick :: .call [ch 'C'] ::
    List.replicate 5 (.lock .exec) ++ [.act, .finish]

theorem talk_plays : (play (step (writer putChar) ()) (Permitted ()) pairConsole talk).isSome := by
  decide +kernel

theorem talk_shows :
    let after := (play (step (writer putChar) ()) (Permitted ()) pairConsole talk).get talk_plays
    ∃ part : List UInt8, Shows after.object ((after.log.flatMap Prod.snd ++ part).foldl Strip.put Strip.empty) ∧
      (part = [] ∨ ∃ t text rest, after.doing t = some (text, rest) ∧ after.kernel.owner () = some t ∧ text = part ++ rest) ∧
      ∀ t, ofThread t after.called = ofThread t after.log ++ ((after.doing t).map Prod.fst).toList :=
  reach_shows pairConsole_begun blankConsole_shows (reach_of_play (Option.some_get talk_plays).symm)

end KOS.Printk
