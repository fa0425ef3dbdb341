import KOS.Stdio

/-! Which bytes of its format `vsprintf` reads. After a percent sign the cursor moves past whatever follows it,
also past the NUL. -/

namespace KOS.FormatReads
open KOS.ByteMemory KOS.LinkMemory KOS.Stdio

/-- The addresses that the loop reads through `format`, in order. -/
def formatReads (fuel : Nat) : Nat → Memory → Nat → Nat → Nat → List Nat
  | 0, _, _, _, _ => []
  | passes + 1, m, out, format, ap =>
      let c := load m format
      if c = 0 then [format]
      else if c ≠ ch '%' then format :: formatReads fuel passes (store m out c) (out + 1) (format + 1) ap
      else
        format :: (format + 1) :: match conversion fuel (load m (format + 1)) m out ap with
          | none => []
          | some r => formatReads fuel passes r.1 r.2.1 (format + 2) r.2.2

/-- Every percent sign is followed by a character of its own. -/
def complete : List UInt8 → Bool
  | [] => true
  | [c] => c ≠ ch '%'
  | c :: d :: rest => if c = ch '%' then complete rest else complete (d :: rest)

/-- The format up to a percent sign that the NUL follows. -/
def body : List UInt8 → List UInt8
  | [] => []
  | [c] => if c = ch '%' then [] else [c]
  | c :: d :: rest => if c = ch '%' then c :: d :: body rest else c :: body (d :: rest)

def tail (fmt : List UInt8) : List UInt8 := if complete fmt then [] else [ch '%']

/-- Nothing behind the NUL is read, and a long enough run reads the format and its NUL, each byte once. -/
structure ReadsExactly (m : Memory) (str format ap : Nat) (fmt : List UInt8) : Prop where
  inside : ∀ fuel, ∀ a ∈ formatReads fuel fuel m str format ap, a ≤ format + fmt.length
  ends : ∃ n, ∀ fuel ≥ n, (vsprintf fuel m str format ap).isSome ∧
    formatReads fuel fuel m str format ap = List.range' format (fmt.length + 1)

theorem body_tail (fmt : List UInt8) : body fmt ++ tail fmt = fmt := by
  induction fmt using complete.induct with
  | case1 => rfl
  | case2 c =>
    by_cases percent : c = ch '%'
    · subst percent
      rfl
    · have whole : complete [c] = true := decide_eq_true percent
      rw [tail, if_pos whole, body, if_neg percent, List.append_nil]
  | case3 d rest ih =>
    rw [tail, complete, if_pos rfl] at *
    rw [body, if_pos rfl, List.cons_append, List.cons_append, ih]
  | case4 c d rest plain ih =>
    rw [tail] at ih ⊢
    rw [complete, if_neg plain, body, if_neg plain, List.cons_append, ih]

/-! More fuel only adds reads. -/

theorem strcpy_mono {fuel fuel' dst src : Nat} {m m' : Memory} (copied : strcpy fuel m dst src = some m')
    (more : fuel ≤ fuel') : strcpy fuel' m dst src = some m' := by
  induction fuel generalizing fuel' m dst src with
  | zero => cases copied
  | succ fuel ih =>
    cases fuel' with
    | zero => omega
    | succ fuel' =>
      rw [strcpy] at copied ⊢
      by_cases nul : load m src = 0
      · rw [if_pos nul] at copied ⊢
        exact copied
      · rw [if_neg nul] at copied ⊢
        exact ih copied (Nat.le_of_succ_le_succ more)

theorem strlenLoop_mono {fuel fuel' a b : Nat} {m : Memory} (ended : strlenLoop fuel m a = some b)
    (more : fuel ≤ fuel') : strlenLoop fuel' m a = some b := by
  induction fuel generalizing fuel' a with
  | zero => cases ended
  | succ fuel ih =>
    cases fuel' with
    | zero => omega
    | succ fuel' =>
      rw [strlenLoop] at ended ⊢
      by_cases nul : load m a = 0
      · rw [if_pos nul] at ended ⊢
        exact ended
      · rw [if_neg nul] at ended ⊢
        exact ih ended (Nat.le_of_succ_le_succ more)

theorem conversion_mono {fuel fuel' out ap : Nat} {c : UInt8} {m : Memory} {r : Memory × Nat × Nat}
    (converted : conversion fuel c m out ap = some r) (more : fuel ≤ fuel') :
    conversion fuel' c m out ap = some r := by
  by_cases isS : c = ch 's'
  · simp only [conversion, if_pos isS, strlen] at converted ⊢
    obtain ⟨m', copied, measured⟩ := Option.bind_eq_some_iff.mp converted
    obtain ⟨len, counted, result⟩ := Option.map_eq_some_iff.mp measured
    obtain ⟨pStr, ended, difference⟩ := Option.map_eq_some_iff.mp counted
    rw [strcpy_mono copied more, Option.bind_some, strlenLoop_mono ended more, Option.map_some, Option.map_some,
      difference, result]
  · simp only [conversion, if_neg isS] at converted ⊢
    exact converted

theorem formatReads_prefix {fuel fuel' passes passes' out format ap : Nat} {m : Memory} (more : fuel ≤ fuel')
    (turns : passes ≤ passes') :
    formatReads fuel passes m out format ap <+: formatReads fuel' passes' m out format ap := by
  induction passes generalizing passes' m out format ap with
  | zero => exact List.nil_prefix
  | succ passes ih =>
    cases passes' with
    | zero => omega
    | succ passes' =>
      have fewer : passes ≤ passes' := Nat.le_of_succ_le_succ turns
      rw [formatReads, formatReads]
      by_cases nul : load m format = 0
      · rw [if_pos nul, if_pos nul]
      · rw [if_neg nul, if_neg nul]
        by_cases plain : load m format ≠ ch '%'
        · rw [if_pos plain, if_pos plain, List.cons_prefix_cons]
          exact ⟨rfl, ih fewer⟩
        · rw [if_neg plain, if_neg plain, List.cons_prefix_cons, List.cons_prefix_cons]
          refine ⟨rfl, rfl, ?_⟩
          cases converted : conversion fuel (load m (format + 1)) m out ap with
          | none => exact List.nil_prefix
          | some r =>
            rw [conversion_mono converted more]
            exact ih fewer

/-! A long enough run. -/

variable {W : Set Nat} {m : Memory} {fmt text : List UInt8} {args : List Arg} {str out format ap fuel passes : Nat}

theorem CString.drop {a : Nat} {left right : List UInt8} (source : CString W m a (left ++ right)) :
    CString W m (a + left.length) right := by
  induction left generalizing a with
  | nil => exact source
  | cons b rest ih =>
    have later := ih source.2.2.2
    rw [Nat.add_assoc, Nat.add_comm 1] at later
    exact later

theorem render_plain {c : UInt8} {rest : List UInt8} (plain : ¬c = ch '%') :
    render (c :: rest) args = (render rest args).map (c :: ·) := by
  cases rest with
  | nil =>
    have single : render [c] args = some [c] := if_neg plain
    rw [single]
    rfl
  | cons d rest => rw [render, if_neg plain]

/-- The reads up to the tail of the format, and the pass that is about to read the tail. -/
structure AtTail (W : Set Nat) (fuel passes : Nat) (m : Memory) (out format ap : Nat) (fmt : List UInt8)
    (passes' : Nat) (m' : Memory) (out' ap' : Nat) : Prop where
  turns : passes ≤ passes' + (body fmt).length
  changes : ChangesOnly W m m'
  reads : formatReads fuel passes m out format ap =
    List.range' format (body fmt).length ++ formatReads fuel passes' m' out' (format + (body fmt).length) ap'

theorem AtTail.here (same : body fmt = []) : AtTail W fuel passes m out format ap fmt passes m out ap := by
  refine ⟨Nat.le_add_right _ _, ChangesOnly.refl W m, ?_⟩
  rw [same]
  rfl

/-- A plain character: one read. -/
theorem AtTail.plain {c : UInt8} {rest : List UInt8} {passes' out' ap' : Nat} {m' : Memory} (plain : ¬c = ch '%')
    (source : CString W m format (c :: rest)) (here : out % 2 ^ 32 ∈ W) (pieces : body fmt = c :: body rest)
    (later : AtTail W fuel passes (store m out c) (out + 1) (format + 1) ap rest passes' m' out' ap') :
    AtTail W fuel (passes + 1) m out format ap fmt passes' m' out' ap' := by
  obtain ⟨-, byte, nonzero, -⟩ := source
  refine ⟨?_, (store_inside here).trans later.changes, ?_⟩
  · have turns := later.turns
    rw [pieces, List.length_cons]
    omega
  · rw [formatReads]
    simp only [byte, if_neg nonzero, ne_eq, if_pos plain]
    rw [later.reads, pieces, List.length_cons, List.range'_succ, List.cons_append, Nat.add_assoc, Nat.add_comm 1]

/-- A percent pair: two reads. -/
theorem AtTail.pair {d : UInt8} {rest : List UInt8} {passes' out' ap' : Nat} {m' : Memory} {r : Memory × Nat × Nat}
    (source : CString W m format (ch '%' :: d :: rest)) (converted : conversion fuel d m out ap = some r)
    (changes : ChangesOnly W m r.1)
    (later : AtTail W fuel passes r.1 r.2.1 (format + 2) r.2.2 rest passes' m' out' ap') :
    AtTail W fuel (passes + 1) m out format ap (ch '%' :: d :: rest) passes' m' out' ap' := by
  obtain ⟨-, byte, nonzero, -, byte', -⟩ := source
  have pieces : body (ch '%' :: d :: rest) = ch '%' :: d :: body rest := by rw [body, if_pos rfl]
  refine ⟨?_, changes.trans later.changes, ?_⟩
  · have turns := later.turns
    rw [pieces, List.length_cons, List.length_cons]
    omega
  · rw [formatReads]
    simp only [byte, byte', if_neg nonzero, ne_eq, not_true_eq_false, if_false, converted]
    rw [later.reads, pieces, List.length_cons, List.length_cons, List.range'_succ, List.range'_succ, List.cons_append,
      List.cons_append, Nat.add_assoc, Nat.add_comm 2]

/-- The loop gets to the tail: induction over the format, a character or a percent pair at a time. -/
theorem formatReads_body (rendered : render (body fmt) args = some text) (source : CString W m format fmt)
    (supplies : Supplies W m ap args) (inside : ∀ k ≤ text.length, (out + k) % 2 ^ 32 ∈ W)
    (small : text.length < 2 ^ 32) (enough : text.length < fuel) (turns : fmt.length ≤ passes) :
    ∃ passes' m' out' ap', AtTail W fuel passes m out format ap fmt passes' m' out' ap' := by
  induction fmt using complete.induct generalizing text args m out format ap passes with
  | case1 => exact ⟨passes, m, out, ap, AtTail.here rfl⟩
  | case2 c =>
    by_cases plain : ¬c = ch '%'
    · have pieces : body [c] = c :: body [] := if_neg plain
      rw [pieces, render_plain plain] at rendered
      obtain ⟨behind, rendered', rfl⟩ := Option.map_eq_some_iff.mp rendered
      have here : out % 2 ^ 32 ∈ W := inside 0 (Nat.zero_le _)
      obtain ⟨passes, rfl⟩ := Nat.exists_eq_add_of_le' turns
      exact ⟨passes, _, out + 1, ap, AtTail.plain plain source here pieces (AtTail.here rfl)⟩
    · have pieces : body [c] = [] := if_pos (not_not.mp plain)
      exact ⟨passes, m, out, ap, AtTail.here pieces⟩
  | case3 d rest ih =>
    rw [body, if_pos rfl, render, if_pos rfl] at rendered
    obtain ⟨⟨written, later⟩, printed, rest_rendered⟩ := Option.bind_eq_some_iff.mp rendered
    obtain ⟨behind, rendered', rfl⟩ := Option.map_eq_some_iff.mp rest_rendered
    rw [List.length_append] at inside small enough
    rw [List.length_cons, List.length_cons] at turns
    obtain ⟨passes, rfl⟩ := Nat.exists_eq_add_of_le' turns
    have inside_written : ∀ k ≤ written.length, (out + k) % 2 ^ 32 ∈ W := fun k within => inside k (by omega)
    obtain ⟨m', ap', converted, first, supplies'⟩ := conversion_at printed supplies inside_written (by omega)
      (show written.length < fuel by omega)
    have inside' : ∀ k ≤ behind.length, (out + written.length + k) % 2 ^ 32 ∈ W := inside_after inside le_rfl
    have source' := source.2.2.2.2.2.2.congr first.changes
    obtain ⟨passes', m'', out', ap'', there⟩ := ih rendered' source' supplies' inside' (by omega) (by omega)
      (show rest.length ≤ passes + rest.length + 1 by omega)
    exact ⟨passes', m'', out', ap'', AtTail.pair source converted first.changes there⟩
  | case4 c d rest plain ih =>
    have pieces : body (c :: d :: rest) = c :: body (d :: rest) := if_neg plain
    rw [pieces, render_plain plain] at rendered
    obtain ⟨behind, rendered', rfl⟩ := Option.map_eq_some_iff.mp rendered
    rw [List.length_cons] at inside small enough
    rw [List.length_cons] at turns
    have here : out % 2 ^ 32 ∈ W := inside 0 (Nat.zero_le _)
    obtain ⟨passes, rfl⟩ := Nat.exists_eq_add_of_le' turns
    have inside' : ∀ k ≤ behind.length, (out + 1 + k) % 2 ^ 32 ∈ W := inside_after inside (by omega)
    have source' := source.2.2.2.congr (store_inside (b := c) here)
    obtain ⟨passes', m', out', ap', there⟩ := ih rendered' source' (supplies.congr (store_inside here)) inside'
      (by omega) (by omega) (show (d :: rest).length ≤ passes + (d :: rest).length by omega)
    exact ⟨passes', m', out', ap', AtTail.plain plain source here pieces there⟩

theorem formatReads_end {tail : List UInt8} (source : CString W m format tail) (none : tail = []) :
    formatReads fuel (passes + 1) m out format ap = [format] := by
  subst none
  rw [formatReads, if_pos source.2]

/-- The NUL is taken for the conversion, and the next pass starts behind it. -/
theorem formatReads_beyond (source : CString W m format [ch '%']) :
    format + 2 ∈ formatReads fuel (passes + 2) m out format ap := by
  obtain ⟨-, byte, nonzero, -, nul⟩ := source
  rw [formatReads]
  simp only [byte, if_neg nonzero, ne_eq, not_true_eq_false, if_false, nul]
  have dropped : conversion fuel 0 m out ap = some (m, out, ap) := rfl
  rw [dropped]
  apply List.mem_cons_of_mem
  apply List.mem_cons_of_mem
  show format + 2 ∈ formatReads fuel (passes + 1) m out (format + 2) ap
  rw [formatReads]
  split_ifs
  · exact List.mem_singleton_self _
  · exact List.mem_cons_self
  · exact List.mem_cons_self

/-- The format is read exactly if no percent sign ends it. -/
theorem vsprintf_readsExactly_iff (m : Memory) (str format ap : Nat) (fmt : List UInt8) (args : List Arg)
    (text : List UInt8) (rendered : render (body fmt) args = some text)
    (source : CString (outputCells str text.length) m format fmt)
    (supplies : Supplies (outputCells str text.length) m ap args) :
    ReadsExactly m str format ap fmt ↔ complete fmt = true := by
  have room : ∃ a, a % 2 ^ 32 ∉ outputCells str text.length := by
    cases fmt with
    | nil => exact ⟨format, source.1⟩
    | cons c rest => exact ⟨format, source.1⟩
  obtain ⟨a, outside⟩ := room
  have small := text_small outside
  have inside : ∀ k ≤ text.length, (str + k) % 2 ^ 32 ∈ outputCells str text.length := fun k within => ⟨k, within, rfl⟩
  have pieces := body_tail fmt
  have length : (body fmt).length + (tail fmt).length = fmt.length := by rw [← List.length_append, pieces]
  have run : ∀ fuel, fmt.length + text.length + 2 ≤ fuel → ∃ passes' m' out' ap',
      AtTail (outputCells str text.length) fuel fuel m str format ap fmt (passes' + 2) m' out' ap' := by
    intro fuel enough
    obtain ⟨passes', m', out', ap', there⟩ := formatReads_body rendered source supplies inside (by omega)
      (show text.length < fuel by omega) (show fmt.length ≤ fuel by omega)
    have turns := there.turns
    obtain ⟨passes', rfl⟩ := Nat.exists_eq_add_of_le' (show 2 ≤ passes' by omega)
    exact ⟨passes', m', out', ap', there⟩
  have rest : ∀ {m'}, ChangesOnly (outputCells str text.length) m m' →
      CString (outputCells str text.length) m' (format + (body fmt).length) (tail fmt) := by
    intro m' changes
    apply CString.drop
    rw [pieces]
    exact source.congr changes
  cases whole : complete fmt with
  | true =>
    have none : tail fmt = [] := if_pos whole
    have same : body fmt = fmt := by rw [none, List.append_nil] at pieces; exact pieces
    rw [same] at rendered
    have reads : ∀ fuel, fmt.length + text.length + 2 ≤ fuel →
        formatReads fuel fuel m str format ap = List.range' format (fmt.length + 1) := by
      intro fuel enough
      obtain ⟨passes', m', out', ap', there⟩ := run fuel enough
      rw [there.reads, formatReads_end (rest there.changes) none, same, List.range'_1_concat]
    refine iff_of_true ⟨?_, fmt.length + text.length + 2, ?_⟩ rfl
    · intro fuel a member
      have more : fuel ≤ fuel + (fmt.length + text.length + 2) := Nat.le_add_right _ _
      have extended : formatReads fuel fuel m str format ap <+: formatReads (fuel + (fmt.length + text.length + 2))
          (fuel + (fmt.length + text.length + 2)) m str format ap := formatReads_prefix more more
      rw [reads _ (Nat.le_add_left _ _)] at extended
      have bound := List.mem_range'_1.mp (extended.subset member)
      omega
    · intro fuel enough
      refine ⟨?_, reads fuel enough⟩
      obtain ⟨m', looped, -⟩ := vsprintfLoop_at rendered source supplies inside (by omega)
        (show text.length < fuel by omega) (show fmt.length < fuel by omega)
      rw [vsprintf, looped]
      rfl
  | false =>
    have lone : tail fmt = [ch '%'] := by
      rw [tail, whole]
      rfl
    rw [lone, List.length_singleton] at length
    apply iff_of_false _ Bool.false_ne_true
    intro exact
    obtain ⟨passes', m', out', ap', there⟩ := run (fmt.length + text.length + 2) le_rfl
    have source' := rest there.changes
    rw [lone] at source'
    have beyond : format + (body fmt).length + 2 ∈
        formatReads (fmt.length + text.length + 2) (fmt.length + text.length + 2) m str format ap := by
      rw [there.reads]
      exact List.mem_append_right _ (formatReads_beyond source')
    have bound := exact.inside _ _ beyond
    omega

/-- A string at 0x100. -/
def stringMemory (s : List UInt8) : Memory := fun a => s.getD (a - 0x100) 0

def doubledSign : List UInt8 := "100%%".toList.map ch

def loneSign : List UInt8 := "100%".toList.map ch

theorem vsprintf_readsExactly_doubled : ReadsExactly (stringMemory doubledSign) 0x400 0x100 0x200 doubledSign := by
  have source : CString (outputCells 0x400 3) (stringMemory doubledSign) 0x100 doubledSign := by
    apply cString_of_bytes
    · intro k within
      have length : doubledSign.length = 5 := by decide
      exact not_mem_outputCells (by decide) (by omega)
    · decide +kernel
    · decide +kernel
  exact (vsprintf_readsExactly_iff _ 0x400 0x100 0x200 doubledSign [] ("100".toList.map ch) (by decide) source trivial).mpr
    (by decide)

/-- The byte behind the NUL is read. -/
theorem loneSign_overread : ¬ReadsExactly (stringMemory loneSign) 0x400 0x100 0x200 loneSign := by
  intro exact
  have beyond : 0x105 ∈ formatReads 6 6 (stringMemory loneSign) 0x400 0x100 0x200 := by decide +kernel
  have bound := exact.inside 6 0x105 beyond
  exact absurd bound (by decide)

end KOS.FormatReads
