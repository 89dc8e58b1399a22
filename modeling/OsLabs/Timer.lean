import OsLabs.Words

/-!
# The System Timer

The system timer of the board counts microseconds in 64 bits, and `Timer::read` of
`lib/pi/src/timer.rs` reads the counter as two 32-bit registers: first the upper half
`CHI`, then the lower half `CLO`. When the lower half wraps around between the two reads,
the halves belong to different values of the counter, and the time read is up to 71
minutes too early. `MiniUart::wait_for_byte` subtracts such times and panics.

Conventions: a `Counter` is the value of the hardware counter at each read of one of its
registers, in order; anything may happen between two reads, as long as the counter does
not go back. A function that reads registers takes the number of reads so far and
returns it advanced, so a call of `Timer::read` at `n` reads `CHI` at `n` and `CLO` at
`n + 1`.

## Main results

* `Duration.checkedSub_eq_none_iff`: a subtraction underflows exactly when the result
  would be negative.
* `between_iff`: one read lies between the two values of the counter exactly when the
  lower half has not decreased between them.
* `waitLoop_ne_panic`: waiting does not panic while the times are not before its start.
* `timer_forward_iff`: all reads, their order, and `wait_for_byte`.
* `timer_backward`: a time that goes back by 71 minutes, and the panic.
-/

namespace OsLabs

/-! ### Durations -/

/-- `core::time::Duration`. -/
structure Duration where
  secs : ℕ
  nanos : ℕ
  lt : nanos < 10 ^ 9
deriving DecidableEq

namespace Duration

/-- `Duration::from_micros`. -/
def fromMicros (micros : ℕ) : Duration :=
  ⟨micros / 10 ^ 6, micros % 10 ^ 6 * 1000, by omega⟩

/-- `Duration::from_millis`. -/
def fromMillis (millis : ℕ) : Duration :=
  ⟨millis / 1000, millis % 1000 * 10 ^ 6, by omega⟩

/-- The derived order: seconds first. -/
instance : LE Duration where
  le a b := a.secs < b.secs ∨ a.secs = b.secs ∧ a.nanos ≤ b.nanos

instance : LT Duration where
  lt a b := a.secs < b.secs ∨ a.secs = b.secs ∧ a.nanos < b.nanos

instance (a b : Duration) : Decidable (a < b) :=
  inferInstanceAs (Decidable (a.secs < b.secs ∨ a.secs = b.secs ∧ a.nanos < b.nanos))

instance (a b : Duration) : Decidable (a ≤ b) :=
  inferInstanceAs (Decidable (a.secs < b.secs ∨ a.secs = b.secs ∧ a.nanos ≤ b.nanos))

/-- `Duration::checked_sub`; the operator `-` panics where it returns `None`. -/
def checkedSub (a b : Duration) : Option Duration :=
  if b.secs ≤ a.secs then
    if h : b.nanos ≤ a.nanos then
      some ⟨a.secs - b.secs, a.nanos - b.nanos, by have := a.lt; omega⟩
    else if 1 ≤ a.secs - b.secs then
      some ⟨a.secs - b.secs - 1, a.nanos + 10 ^ 9 - b.nanos, by omega⟩
    else none
  else none

/-- `Duration::checked_add`; the operator `+` panics where it returns `None`. -/
def checkedAdd (a b : Duration) : Option Duration := do
  let secs ← OsLabs.checkedAdd a.secs b.secs
  if h : a.nanos + b.nanos < 10 ^ 9 then
    some ⟨secs, a.nanos + b.nanos, h⟩
  else
    let secs ← OsLabs.checkedAdd secs 1
    some ⟨secs, a.nanos + b.nanos - 10 ^ 9, by
      have := a.lt
      have := b.lt
      omega⟩

/-- A duration in nanoseconds. -/
def toNanos (a : Duration) : ℕ := a.secs * 10 ^ 9 + a.nanos

/-- Durations are compared by their nanoseconds, with the seconds counted in. -/
theorem le_iff {a b : Duration} : a ≤ b ↔ a.toNanos ≤ b.toNanos := by
  have ha := a.lt
  have hb := b.lt
  change (a.secs < b.secs ∨ a.secs = b.secs ∧ a.nanos ≤ b.nanos) ↔ _
  rw [toNanos, toNanos]
  omega

/-- A duration made of microseconds has a thousand nanoseconds for each. -/
@[simp] theorem toNanos_fromMicros (micros : ℕ) :
    (fromMicros micros).toNanos = micros * 1000 := by
  simp only [toNanos, fromMicros]
  omega

/-- Durations made of microseconds are compared as the numbers are. -/
theorem fromMicros_le {a b : ℕ} : fromMicros a ≤ fromMicros b ↔ a ≤ b := by
  rw [le_iff, toNanos_fromMicros, toNanos_fromMicros]
  omega

/-- Away from the end of time, an addition does not overflow. -/
theorem checkedAdd_ne_none {a b : Duration} (h : a.secs + b.secs + 1 < wordSize) :
    a.checkedAdd b ≠ none := by
  have hsum : OsLabs.checkedAdd a.secs b.secs = some (a.secs + b.secs) :=
    checkedAdd_eq_some (by omega)
  have hcarry : OsLabs.checkedAdd (a.secs + b.secs) 1 = some (a.secs + b.secs + 1) :=
    checkedAdd_eq_some h
  simp only [checkedAdd, hsum, hcarry, Option.bind_eq_bind, Option.bind_some]
  split <;> simp

/-- **Underflow**: a subtraction fails exactly when its result would be negative. -/
theorem checkedSub_eq_none_iff {a b : Duration} :
    a.checkedSub b = none ↔ ¬ b ≤ a := by
  have ha := a.lt
  have hb := b.lt
  rw [le_iff, toNanos, toNanos, checkedSub]
  split
  · split
    · simp only [reduceCtorEq, false_iff, not_not]
      omega
    · split
      · simp only [reduceCtorEq, false_iff, not_not]
        omega
      · simp only [true_iff]
        omega
  · simp only [true_iff]
    omega

end Duration

/-! ### The timer -/

/-- **The hardware counter**, at each read of one of its registers. It has 64 bits and
does not go back. -/
structure Counter where
  value : ℕ → ℕ
  mono : Monotone value
  lt : ∀ n, value n < 2 ^ 64

namespace Counter

variable (c : Counter)

/-- The register `CHI` at the `n`-th read. -/
def chi (n : ℕ) : ℕ := c.value n / 2 ^ 32

/-- The register `CLO` at the `n`-th read. -/
def clo (n : ℕ) : ℕ := c.value n % 2 ^ 32

/-- The microseconds `Timer::read` puts together. -/
def micros (n : ℕ) : ℕ := c.chi n <<< 32 + c.clo (n + 1)

/-- `Timer::read`, and the number of register reads after it. -/
def read (n : ℕ) : Duration × ℕ := (Duration.fromMicros (c.micros n), n + 2)

/-- `current_time`. -/
def currentTime (n : ℕ) : Duration × ℕ := c.read n

end Counter

/-- How a call may fail to return: it panics, or it still spins when the fuel is used up. -/
inductive Halt where
  | panic
  | spinning
deriving DecidableEq

/-- `LsrStatus::DataReady`. -/
def dataReady : UInt8 := 1

/-- `MiniUart::has_byte` on the value `lsr` of the register `AUX_MU_LSR_REG`. -/
def hasByte (lsr : UInt8) : Bool := lsr &&& dataReady == dataReady

section

variable (c : Counter) (lsr : ℕ → UInt8)

/-- The loop of `wait_for_byte` with a timeout, after `n` reads of the timer and `i` of
the status register: whether a byte is ready, that is `Ok` or `Err`. -/
def waitLoop (start timeout : Duration) : ℕ → ℕ → ℕ → Except Halt Bool
  | 0, _, _ => .error .spinning
  | fuel + 1, n, i =>
    if hasByte (lsr i) then .ok true
    else
      let (now, n) := c.currentTime n
      match now.checkedSub start with
      | none => .error .panic
      | some elapsed =>
        if timeout ≤ elapsed then .ok false else waitLoop start timeout fuel n (i + 1)

/-- The loop of `wait_for_byte` without a timeout. -/
def waitForever : ℕ → ℕ → Except Halt Bool
  | 0, _ => .error .spinning
  | fuel + 1, i => if hasByte (lsr i) then .ok true else waitForever fuel (i + 1)

/-- `MiniUart::wait_for_byte`. -/
def waitForByte (timeout : Option Duration) (fuel n i : ℕ) : Except Halt Bool :=
  match timeout with
  | some timeout =>
    let (start, n) := c.currentTime n
    waitLoop c lsr start timeout fuel n i
  | none => waitForever lsr fuel i

end

/-- The `k`-th call of `current_time` of a run. -/
def Counter.time (c : Counter) (k : ℕ) : Duration := (c.currentTime (2 * k)).1

/-- **The property** of a run: each call returns a time between the counter at its first
register read and the counter at its second, the times do not go back, and no
`wait_for_byte` panics, whenever it starts and whatever the status register says. -/
structure Counter.Forward (c : Counter) : Prop where
  between : ∀ k, Duration.fromMicros (c.value (2 * k)) ≤ c.time k ∧
    c.time k ≤ Duration.fromMicros (c.value (2 * k + 1))
  mono : ∀ j k, j ≤ k → c.time j ≤ c.time k
  wait : ∀ lsr timeout fuel k i, waitForByte c lsr timeout fuel (2 * k) i ≠ .error .panic

/-! ### One read -/

/-- The value put together from the upper half of one value of the counter and the lower
half of another. -/
theorem Counter.micros_eq (c : Counter) (n : ℕ) :
    c.micros n = c.value n / 2 ^ 32 * 2 ^ 32 + c.value (n + 1) % 2 ^ 32 := by
  rw [micros, chi, clo, Nat.shiftLeft_eq]

/-- **One read** lies between the counter at the first register read and the counter at
the second exactly when the lower half has not decreased between them. -/
theorem between_iff (c : Counter) (n : ℕ) :
    (c.value n ≤ c.micros n ∧ c.micros n ≤ c.value (n + 1)) ↔ c.clo n ≤ c.clo (n + 1) := by
  have hle : c.value n ≤ c.value (n + 1) := c.mono (Nat.le_succ n)
  rw [c.micros_eq, Counter.clo, Counter.clo]
  omega

/-! ### Runs -/

/-- **Waiting does not panic** as long as no time read is before the start. -/
theorem waitLoop_ne_panic {c : Counter} {lsr : ℕ → UInt8} {start timeout : Duration}
    {fuel k i : ℕ} (h : ∀ j ≥ k, start ≤ c.time j) :
    waitLoop c lsr start timeout fuel (2 * k) i ≠ .error .panic := by
  induction fuel generalizing k i with
  | zero => simp [waitLoop]
  | succ fuel ih =>
      rw [waitLoop]
      split
      · simp
      · have hsub : (c.time k).checkedSub start ≠ none := fun hnone =>
          Duration.checkedSub_eq_none_iff.mp hnone (h k le_rfl)
        simp only [Counter.currentTime, Counter.read]
        split
        · rename_i hnone
          exact absurd hnone hsub
        · split
          · simp
          · exact ih (k := k + 1) fun j hj => h j (by omega)

/-- The wait for a byte does not panic, however often it polls. -/
theorem waitForever_ne_panic (lsr : ℕ → UInt8) (fuel i : ℕ) :
    waitForever lsr fuel i ≠ .error .panic := by
  induction fuel generalizing i with
  | zero => simp [waitForever]
  | succ fuel ih =>
      rw [waitForever]
      split
      · simp
      · exact ih (i + 1)

/-- **When the timer never runs backwards.** In a run of `current_time` calls every call
returns a time between its two register reads, the times do not decrease and waiting for
a byte never panics, if and only if in no call the lower half of the counter decreases
from the first register read to the second. -/
theorem timer_forward_iff (c : Counter) :
    c.Forward ↔ ∀ k, c.clo (2 * k) ≤ c.clo (2 * k + 1) := by
  constructor
  · intro h k
    rw [← between_iff]
    obtain ⟨hlo, hhi⟩ := h.between k
    exact ⟨Duration.fromMicros_le.mp hlo, Duration.fromMicros_le.mp hhi⟩
  · intro h
    have hbetween : ∀ k, c.value (2 * k) ≤ c.micros (2 * k) ∧
        c.micros (2 * k) ≤ c.value (2 * k + 1) := fun k => (between_iff c _).mpr (h k)
    have hmono : ∀ j k, j ≤ k → c.time j ≤ c.time k := by
      intro j k hjk
      refine Duration.fromMicros_le.mpr ?_
      rcases Nat.eq_or_lt_of_le hjk with rfl | hlt
      · exact le_rfl
      · -- the first call ends before the second begins
        calc c.micros (2 * j) ≤ c.value (2 * j + 1) := (hbetween j).2
          _ ≤ c.value (2 * k) := c.mono (by omega)
          _ ≤ c.micros (2 * k) := (hbetween k).1
    refine ⟨fun k => ?_, hmono, fun lsr timeout fuel k i => ?_⟩
    · exact ⟨Duration.fromMicros_le.mpr (hbetween k).1,
        Duration.fromMicros_le.mpr (hbetween k).2⟩
    · cases timeout with
      | none => exact waitForever_ne_panic lsr fuel i
      | some timeout =>
          exact waitLoop_ne_panic (k := k + 1) fun j hj => hmono k j (by omega)

/-- A counter whose lower half wraps around between the register reads of the second
call. -/
def wrapping : Counter where
  value n := if n < 3 then 2 ^ 32 - 1 else 2 ^ 32
  mono a b hab := by
    simp only
    split <;> split <;> omega
  lt n := by split <;> omega

/-- **The defect**: the counter goes from `0xffffffff` to `0x100000000` between the two
register reads of the second call. The first call returns 71 minutes, the second one 0,
and a `wait_for_byte` that starts with the first call panics. -/
theorem timer_backward :
    wrapping.time 0 = Duration.fromMicros (2 ^ 32 - 1) ∧
      wrapping.time 1 = Duration.fromMicros 0 ∧
      waitForByte wrapping (fun _ => 0) (some (Duration.fromMicros 1000)) 1 0 0 =
        .error .panic ∧
      ¬ wrapping.Forward := by
  have hpanic : waitForByte wrapping (fun _ => 0) (some (Duration.fromMicros 1000)) 1 0 0 =
      .error .panic := by decide
  exact ⟨by decide, by decide, hpanic, fun h => h.wait _ _ 1 0 0 hpanic⟩

end OsLabs
