import Mathlib

/-! `timer.c`: the divisor of the PIT, and sleeps that poll the tick counter. -/

namespace KOS.Timer

def INPUT_FREQUENCY : Int := 1193180
def SYS_TICK_US : Nat := 10
def CONTRER_PORT_0 : Nat := 0x40
def COUNTER_CTL_PORT : Nat := 0x43
def COUNTER_CH_0 : Nat := 0x00 <<< 6
def COUNTER_AC_ALL : Nat := 0x03 <<< 4
def COUNTER_MODE_2 : Nat := 0x02 <<< 1
def COUNTER_BIN : Nat := 0x00 <<< 0

/-! `timer_set`. Every result of `int` arithmetic goes through `int`. -/

/-- Signed overflow has no value. -/
def checked (x : Int) : Option Int := if -2 ^ 31 ≤ x ∧ x < 2 ^ 31 then some x else none

/-- What the processor makes of it. -/
def wrapped (x : Int) : Option Int := some (x.bmod (2 ^ 32))

def divRoundUp (int : Int → Option Int) (x step : Int) : Option Int := do
  let sum ← int (x + step)
  let sum ← int (sum - 1)
  some (sum.tdiv step)

def usToTicks (int : Int → Option Int) (us : Int) : Option Int := do
  let product ← int (us * INPUT_FREQUENCY)
  divRoundUp int product 1000000

/-- The ports and bytes written. -/
def timerSet (int : Int → Option Int) (us : Int) : Option (List (Nat × Nat)) := do
  let counterCtl := COUNTER_CH_0 + COUNTER_AC_ALL + COUNTER_MODE_2 + COUNTER_BIN
  let counterData ← if us < 54924 then (usToTicks int us).map fun ticks => (ticks % 2 ^ 16).toNat else some 0xffff
  some [(COUNTER_CTL_PORT, counterCtl % 2 ^ 8), (CONTRER_PORT_0, counterData % 2 ^ 8),
    (CONTRER_PORT_0, counterData / 2 ^ 8 % 2 ^ 8)]

/-- The counter value for a period, rounded up, as far as 16 bits go. -/
def divisor (us : Nat) : Nat := min (us * 1193180 ⌈/⌉ 1000000) 0xFFFF

/-- No overflow, and the low byte and the high byte of the divisor are written behind the control byte. -/
def Programmed (us : Nat) : Prop :=
  timerSet checked us = some [(COUNTER_CTL_PORT, 0x34), (CONTRER_PORT_0, divisor us % 2 ^ 8),
    (CONTRER_PORT_0, divisor us / 2 ^ 8)]

theorem divisor_mono : Monotone divisor := by
  intro us us' le
  unfold divisor
  rw [Nat.ceilDiv_eq_add_pred_div, Nat.ceilDiv_eq_add_pred_div]
  omega

theorem checked_of {x : Int} (low : -2 ^ 31 ≤ x) (high : x < 2 ^ 31) : checked x = some x :=
  if_pos ⟨low, high⟩

theorem checked_overflow {x : Int} (high : 2 ^ 31 ≤ x) : checked x = none :=
  if_neg fun fits => absurd fits.2 (Int.not_lt.mpr high)

theorem usToTicks_small {us : Nat} (small : us ≤ 1798) :
    usToTicks checked us = some (((us * 1193180 + 999999) / 1000000 : Nat) : Int) := by
  have product : checked ((us : Int) * INPUT_FREQUENCY) = some ((us : Int) * INPUT_FREQUENCY) := by
    unfold INPUT_FREQUENCY
    exact checked_of (by omega) (by omega)
  have sum : checked ((us : Int) * INPUT_FREQUENCY + 1000000) = some ((us : Int) * INPUT_FREQUENCY + 1000000) := by
    unfold INPUT_FREQUENCY
    exact checked_of (by omega) (by omega)
  have less : checked ((us : Int) * INPUT_FREQUENCY + 1000000 - 1) = some ((us : Int) * INPUT_FREQUENCY + 1000000 - 1) := by
    unfold INPUT_FREQUENCY
    exact checked_of (by omega) (by omega)
  have quotient : ((us : Int) * INPUT_FREQUENCY + 1000000 - 1).tdiv 1000000 = ((us * 1193180 + 999999) / 1000000 : Nat) := by
    unfold INPUT_FREQUENCY
    rw [Int.tdiv_eq_ediv_of_nonneg (by omega)]
    omega
  unfold usToTicks divRoundUp
  rw [product, Option.bind_eq_bind, Option.bind_some, sum, Option.bind_some, less, Option.bind_some, quotient]

/-- From 1799 on the product, or the sum behind it, overflows. -/
theorem usToTicks_overflow {us : Nat} (large : 1799 ≤ us) : usToTicks checked us = none := by
  unfold usToTicks
  by_cases product : (us : Int) * INPUT_FREQUENCY < 2 ^ 31
  · have sum : checked ((us : Int) * INPUT_FREQUENCY + 1000000) = none := by
      unfold INPUT_FREQUENCY
      exact checked_overflow (by omega)
    rw [checked_of (by unfold INPUT_FREQUENCY; omega) product, Option.bind_eq_bind, Option.bind_some]
    unfold divRoundUp
    rw [sum]
    rfl
  · rw [checked_overflow (Int.not_lt.mp product), Option.bind_eq_bind, Option.bind_none]

/-- The divisor is right up to 1798 us and from 54924 us on, where it is not computed. -/
theorem timerSet_iff (us : Nat) : (Programmed us ↔ us ≤ 1798 ∨ 54924 ≤ us) ∧ Monotone divisor := by
  refine ⟨?_, divisor_mono⟩
  unfold Programmed timerSet
  constructor
  · intro programmed
    by_contra middle
    rw [if_pos (by omega), usToTicks_overflow (by omega)] at programmed
    cases programmed
  · intro right
    by_cases small : us ≤ 1798
    · have bound : (us * 1193180 + 999999) / 1000000 < 2 ^ 16 := by omega
      have value : divisor us = (us * 1193180 + 999999) / 1000000 := by
        unfold divisor
        rw [Nat.ceilDiv_eq_add_pred_div]
        omega
      rw [if_pos (by omega), usToTicks_small small, value]
      generalize (us * 1193180 + 999999) / 1000000 = ticks at bound
      have same : ((ticks : Int) % 2 ^ 16).toNat = ticks := by omega
      have high : ticks / 2 ^ 8 % 2 ^ 8 = ticks / 2 ^ 8 := by omega
      simp only [Option.map_some, Option.bind_eq_bind, Option.bind_some, same, high]
      rfl
    · have value : divisor us = 0xFFFF := by
        unfold divisor
        rw [Nat.ceilDiv_eq_add_pred_div]
        omega
      rw [if_neg (by omega), value]
      rfl

/-- 1799 us would be 2147 ticks; what the processor computes is 63389. -/
theorem timerSet_overflows :
    ¬Programmed 1799 ∧ timerSet checked 1799 = none ∧ divisor 1799 = 2147 ∧
      timerSet wrapped 1799 = some [(COUNTER_CTL_PORT, 0x34), (CONTRER_PORT_0, 63389 % 2 ^ 8), (CONTRER_PORT_0, 63389 / 2 ^ 8)] := by
  have none_ : timerSet checked 1799 = none := by decide
  refine ⟨?_, none_, by decide, by decide⟩
  intro programmed
  unfold Programmed at programmed
  rw [show ((1799 : Nat) : Int) = 1799 from rfl, none_] at programmed
  cases programmed

/-! `msleep` and `usleep`. -/

def msecsToJiffies (ms : Nat) : Nat := ms * 1000 % 2 ^ 32 / SYS_TICK_US
def usecsToJiffies (us : Nat) : Nat := us / SYS_TICK_US

section
variable (ticks : Nat → Nat)

/-- `ticks n` interrupts come between the read of `jiffies` before poll `n` and poll `n`. Returns the number of
polls; each of them but the last is followed by a `kthread_yield`. -/
def sleepLoop (sleepTicks startTicks : Nat) : Nat → Nat → Nat → Option Nat
  | 0, _, _ => none
  | fuel + 1, poll, jiffies =>
    let jiffies := (jiffies + ticks poll) % 2 ^ 32
    if (jiffies + 2 ^ 32 - startTicks) % 2 ^ 32 < sleepTicks then sleepLoop sleepTicks startTicks fuel (poll + 1) jiffies
    else some (poll + 1)

def msleep (fuel ms jiffies : Nat) : Option Nat := sleepLoop ticks (msecsToJiffies ms) jiffies fuel 0 jiffies
def usleep (fuel us jiffies : Nat) : Option Nat := sleepLoop ticks (usecsToJiffies us) jiffies fuel 0 jiffies

/-- The interrupts up to the poll. -/
def elapsed (polls : Nat) : Nat := ∑ poll ∈ Finset.range polls, ticks poll

theorem elapsed_succ (polls : Nat) : elapsed ticks (polls + 1) = elapsed ticks polls + ticks polls :=
  Finset.sum_range_succ ..

/-- The counter has wrapped or not: the difference is what has elapsed, modulo `2 ^ 32`. -/
theorem counter_difference {start elapsed : Nat} (range : start < 2 ^ 32) :
    ((start + elapsed) % 2 ^ 32 + 2 ^ 32 - start) % 2 ^ 32 = elapsed % 2 ^ 32 := by
  omega

theorem counter_tick {start elapsed more : Nat} :
    ((start + elapsed) % 2 ^ 32 + more) % 2 ^ 32 = (start + (elapsed + more)) % 2 ^ 32 := by
  omega

variable {ticks} {sleepTicks start : Nat} (range : start < 2 ^ 32)
include range

theorem sleepLoop_succ {fuel poll : Nat} :
    sleepLoop ticks sleepTicks start (fuel + 1) poll ((start + elapsed ticks poll) % 2 ^ 32) =
      if elapsed ticks (poll + 1) % 2 ^ 32 < sleepTicks then
        sleepLoop ticks sleepTicks start fuel (poll + 1) ((start + elapsed ticks (poll + 1)) % 2 ^ 32)
      else some (poll + 1) := by
  show (if ((((start + elapsed ticks poll) % 2 ^ 32 + ticks poll) % 2 ^ 32) + 2 ^ 32 - start) % 2 ^ 32 < sleepTicks then
      sleepLoop ticks sleepTicks start fuel (poll + 1) (((start + elapsed ticks poll) % 2 ^ 32 + ticks poll) % 2 ^ 32)
    else some (poll + 1)) = _
  rw [counter_tick, ← elapsed_succ, counter_difference range]

theorem sleepLoop_elapsed {fuel poll polls : Nat}
    (returned : sleepLoop ticks sleepTicks start fuel poll ((start + elapsed ticks poll) % 2 ^ 32) = some polls) :
    sleepTicks ≤ elapsed ticks polls := by
  induction fuel generalizing poll with
  | zero => cases returned
  | succ fuel ih =>
    rw [sleepLoop_succ range] at returned
    by_cases early : elapsed ticks (poll + 1) % 2 ^ 32 < sleepTicks
    · rw [if_pos early] at returned
      exact ih returned
    · rw [if_neg early] at returned
      cases returned
      exact (Nat.not_lt.mp early).trans (Nat.mod_le ..)

/-- With gaps below `2 ^ 31` no poll misses the time: the loop ends by the first one that comes late enough. -/
theorem sleepLoop_returns (fits : sleepTicks < 2 ^ 31) (gaps : ∀ poll, ticks poll < 2 ^ 31) {more poll : Nat}
    (before : elapsed ticks poll < 2 ^ 31) (late : sleepTicks ≤ elapsed ticks (poll + more + 1)) :
    ∃ polls ≤ poll + more + 1,
      sleepLoop ticks sleepTicks start (more + 1) poll ((start + elapsed ticks poll) % 2 ^ 32) = some polls := by
  induction more generalizing poll with
  | zero =>
    have gap := gaps poll
    have next := elapsed_succ ticks poll
    rw [Nat.add_zero] at late
    refine ⟨poll + 1, Nat.le_refl _, ?_⟩
    rw [sleepLoop_succ range, Nat.mod_eq_of_lt (by omega), if_neg (Nat.not_lt.mpr late)]
  | succ more ih =>
    rw [sleepLoop_succ range]
    by_cases now : elapsed ticks (poll + 1) % 2 ^ 32 < sleepTicks
    · have gap := gaps poll
      have next := elapsed_succ ticks poll
      rw [if_pos now]
      rw [Nat.mod_eq_of_lt (by omega)] at now
      rw [show poll + (more + 1) + 1 = poll + 1 + more + 1 by omega] at late ⊢
      exact ih (now.trans fits) late
    · rw [if_neg now]
      exact ⟨poll + 1, by omega, rfl⟩

omit range

/-- However `jiffies` stands and however the interrupts fall, the sleep does not return before `required` of them. -/
def NeverShort (sleep : (Nat → Nat) → Nat → Nat → Option Nat) (required : Nat) : Prop :=
  ∀ (ticks : Nat → Nat) (jiffies fuel polls : Nat), jiffies < 2 ^ 32 → (∀ poll, ticks poll < 2 ^ 31) →
    sleep ticks fuel jiffies = some polls → required ≤ elapsed ticks polls

/-- A sleep can return after exactly the ticks it computed, so these must not be too few. -/
theorem neverShort_iff {computed required : Nat} (fits : computed < 2 ^ 31) :
    NeverShort (fun ticks fuel jiffies => sleepLoop ticks computed jiffies fuel 0 jiffies) required ↔ required ≤ computed := by
  constructor
  · intro never
    have exact_ : sleepLoop (fun _ => computed) computed 0 1 0 0 = some 1 := by
      unfold sleepLoop
      rw [if_neg (by omega)]
    have enough := never (fun _ => computed) 0 1 1 (Nat.two_pow_pos 32) (fun _ => fits) exact_
    rwa [elapsed_succ, show elapsed (fun _ => computed) 0 = 0 from rfl, Nat.zero_add] at enough
  · intro le ticks jiffies fuel polls range _ returned
    apply le.trans
    apply sleepLoop_elapsed range
    rw [show elapsed ticks 0 = 0 from rfl, Nat.add_zero, Nat.mod_eq_of_lt range]
    exact returned

end

theorem msecsToJiffies_lt (ms : Nat) : msecsToJiffies ms < 2 ^ 31 := by
  unfold msecsToJiffies SYS_TICK_US
  omega

theorem usecsToJiffies_lt {us : Nat} (range : us < 2 ^ 32) : usecsToJiffies us < 2 ^ 31 := by
  unfold usecsToJiffies SYS_TICK_US
  omega

/-- Once enough interrupts came the sleeps have returned. -/
theorem sleeps_return {ticks : Nat → Nat} {jiffies ms us more : Nat} (range : jiffies < 2 ^ 32) (usRange : us < 2 ^ 32)
    (gaps : ∀ poll, ticks poll < 2 ^ 31) :
    (msecsToJiffies ms ≤ elapsed ticks (more + 1) → ∃ polls ≤ more + 1, msleep ticks (more + 1) ms jiffies = some polls) ∧
    (usecsToJiffies us ≤ elapsed ticks (more + 1) → ∃ polls ≤ more + 1, usleep ticks (more + 1) us jiffies = some polls) := by
  have returns {computed : Nat} (fits : computed < 2 ^ 31) (late : computed ≤ elapsed ticks (more + 1)) :
      ∃ polls ≤ more + 1, sleepLoop ticks computed jiffies (more + 1) 0 jiffies = some polls := by
    have loop := @sleepLoop_returns ticks computed jiffies range fits gaps more 0 (Nat.two_pow_pos 31)
    rw [Nat.zero_add, show (jiffies + elapsed ticks 0) % 2 ^ 32 = jiffies from Nat.mod_eq_of_lt range] at loop
    exact loop late
  exact ⟨returns (msecsToJiffies_lt ms), returns (usecsToJiffies_lt usRange)⟩

/-- `ms * 1000` wraps from 4294968 ms on, and `us / SYS_TICK_US` rounds down. -/
theorem sleeps_iff (ms us : Nat) (range : us < 2 ^ 32) :
    (NeverShort (fun ticks fuel jiffies => msleep ticks fuel ms jiffies) (ms * 1000 ⌈/⌉ SYS_TICK_US) ↔ ms * 1000 < 2 ^ 32) ∧
    (NeverShort (fun ticks fuel jiffies => usleep ticks fuel us jiffies) (us ⌈/⌉ SYS_TICK_US) ↔ us % SYS_TICK_US = 0) := by
  constructor
  · apply (neverShort_iff (msecsToJiffies_lt ms)).trans
    unfold msecsToJiffies SYS_TICK_US
    rw [Nat.ceilDiv_eq_add_pred_div]
    omega
  · apply (neverShort_iff (usecsToJiffies_lt range)).trans
    unfold usecsToJiffies SYS_TICK_US
    rw [Nat.ceilDiv_eq_add_pred_div]
    omega

theorem sleeps_iff_short :
    (NeverShort (fun ticks fuel jiffies => msleep ticks fuel 100 jiffies) (100 * 1000 ⌈/⌉ SYS_TICK_US) ↔ 100 * 1000 < 2 ^ 32) ∧
    (NeverShort (fun ticks fuel jiffies => usleep ticks fuel 15 jiffies) (15 ⌈/⌉ SYS_TICK_US) ↔ 15 % SYS_TICK_US = 0) :=
  sleeps_iff 100 15 (by decide)

/-- `usleep(15)` returns at the first tick of two; `msleep(4294968)` after 70 ticks of 429496800. The counter wraps in both. -/
theorem sleeps_short :
    usleep (fun _ => 1) 1 15 0xFFFFFFFF = some 1 ∧ elapsed (fun _ => 1) 1 < 15 ⌈/⌉ SYS_TICK_US ∧
      msleep (fun _ => 70) 1 4294968 0xFFFFFFFF = some 1 ∧ elapsed (fun _ => 70) 1 < 4294968 * 1000 ⌈/⌉ SYS_TICK_US ∧
      4294968 * 1000 ⌈/⌉ SYS_TICK_US < 2 ^ 31 ∧
      ¬NeverShort (fun ticks fuel jiffies => usleep ticks fuel 15 jiffies) (15 ⌈/⌉ SYS_TICK_US) ∧
      ¬NeverShort (fun ticks fuel jiffies => msleep ticks fuel 4294968 jiffies) (4294968 * 1000 ⌈/⌉ SYS_TICK_US) := by
  have usleep_ : usleep (fun _ => 1) 1 15 0xFFFFFFFF = some 1 := by decide
  have msleep_ : msleep (fun _ => 70) 1 4294968 0xFFFFFFFF = some 1 := by decide
  have two : elapsed (fun _ => 1) 1 < 15 ⌈/⌉ SYS_TICK_US := by decide
  have many : elapsed (fun _ => 70) 1 < 4294968 * 1000 ⌈/⌉ SYS_TICK_US := by decide
  refine ⟨usleep_, two, msleep_, many, by decide, ?_, ?_⟩
  · intro never
    exact Nat.not_le_of_lt two (never _ _ _ _ (by decide) (fun _ => by decide) usleep_)
  · intro never
    exact Nat.not_le_of_lt many (never _ _ _ _ (by decide) (fun _ => by decide) msleep_)

end KOS.Timer
