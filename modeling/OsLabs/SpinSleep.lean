import OsLabs.Timer

/-!
# Spinning on the System Timer

`spin_sleep` of `lib/pi/src/timer.rs` writes the time it waits for to the register
`COMPARE[0]`, spins until bit 0 of `CS` is set, and then writes 0 to `CS` to clear it. The
hardware sets the bit when the lower half of the counter equals `COMPARE[0]`, and clears it
when 1 is written to it; writing 0 has no effect. So the bit stays set after the first
sleep and every later sleep returns at once. A sleep is also cut short when the counter
passes the old value of `COMPARE[0]` before the new one is written, and a time that is not
a whole number of microseconds is rounded down.

Conventions: the timer counts ticks of a microsecond, and `count` is the number of ticks
since it was started, so the counter of the hardware is `count` modulo `2 ^ 64`. Any number
of ticks may pass before each access to a register: the schedule `wait` gives the number
before the `n`-th access of a call. Time that has passed is measured in whole ticks.

## Main results

* `idle_cs0_iff`: when the bit is set.
* `longEnough_of_meets`: a sleep that meets the condition is long enough.
* `exists_early`: one that does not may return too early.
* `spin_sleep_waits`: every run whose sleeps meet the condition, and the converse.
-/

namespace OsLabs

/-- `Duration::as_micros`. -/
def Duration.asMicros (a : Duration) : ℕ := a.secs * 10 ^ 6 + a.nanos / 1000

/-- The duration that `checked_add` returns is the sum of the two. -/
theorem Duration.toNanos_checkedAdd {a b c : Duration} (h : a.checkedAdd b = some c) :
    c.toNanos = a.toNanos + b.toNanos := by
  have hsecs : ∀ {x y z : ℕ}, OsLabs.checkedAdd x y = some z → z = x + y := by
    intro x y z hz
    rw [OsLabs.checkedAdd] at hz
    split at hz
    · exact (Option.some.inj hz).symm
    · cases hz
  rw [Duration.checkedAdd, Option.bind_eq_bind, Option.bind_eq_some_iff] at h
  obtain ⟨secs, hsum, h⟩ := h
  have hsum := hsecs hsum
  split at h
  · obtain rfl := Option.some.inj h
    simp only [toNanos]
    omega
  · rw [Option.bind_eq_some_iff] at h
    obtain ⟨secs', hcarry, h⟩ := h
    have hcarry := hsecs hcarry
    obtain rfl := Option.some.inj h
    simp only [toNanos]
    omega

/-- Microseconds are whole microseconds: the rest is cut off. -/
theorem Duration.asMicros_eq (a : Duration) : a.asMicros = a.toNanos / 1000 := by
  rw [asMicros, toNanos]
  omega

/-! ### The hardware -/

/-- **The system timer**: its ticks, `COMPARE[0]`, and bit 0 of `CS`, which is set whenever
the lower half of the counter equals `COMPARE[0]`. -/
structure SystemTimer where
  count : ℕ
  compare : ℕ
  cs0 : Bool
  matched : count % 2 ^ 32 = compare → cs0 = true

namespace SystemTimer

/-- The counter advances. -/
def tick (s : SystemTimer) : SystemTimer where
  count := s.count + 1
  compare := s.compare
  cs0 := s.cs0 || ((s.count + 1) % 2 ^ 32 == s.compare)
  matched h := Bool.or_eq_true_iff.mpr (Or.inr (beq_iff_eq.mpr h))

/-- The counter advances by `k`. -/
def idle (s : SystemTimer) : ℕ → SystemTimer
  | 0 => s
  | k + 1 => (s.idle k).tick

/-- `CHI`. -/
def chi (s : SystemTimer) : ℕ := s.count / 2 ^ 32 % 2 ^ 32

/-- `CLO`. -/
def clo (s : SystemTimer) : ℕ := s.count % 2 ^ 32

/-- `COMPARE[0].write(value)`. -/
def writeCompare (s : SystemTimer) (value : ℕ) : SystemTimer where
  count := s.count
  compare := value
  cs0 := s.cs0 || (s.count % 2 ^ 32 == value)
  matched h := Bool.or_eq_true_iff.mpr (Or.inr (beq_iff_eq.mpr h))

/-- `CS.write(value)`: a 1 in bit 0 clears the bit. -/
def writeCs (s : SystemTimer) (value : ℕ) : SystemTimer where
  count := s.count
  compare := s.compare
  cs0 := (s.cs0 && value % 2 == 0) || (s.count % 2 ^ 32 == s.compare)
  matched h := Bool.or_eq_true_iff.mpr (Or.inr (beq_iff_eq.mpr h))

end SystemTimer

/-! ### The sleep -/

section

variable (wait : ℕ → ℕ)

/-- `while 0 == (timer.registers.CS.read() & 1) {}` from the `n`-th access on, and the number
of accesses after it. -/
def spinLoop : ℕ → ℕ → SystemTimer → Except Halt (SystemTimer × ℕ)
  | 0, _, _ => .error .spinning
  | fuel + 1, n, s =>
    let s := s.idle (wait n)
    if s.cs0 = false then spinLoop fuel (n + 1) s else .ok (s, n + 1)

/-- `spin_sleep`, called in state `s`: the state in which it returns. -/
def spinSleep (fuel : ℕ) (t : Duration) (s : SystemTimer) : Except Halt SystemTimer :=
  let s := s.idle (wait 0)
  let hi := s.chi
  let s := s.idle (wait 1)
  let lo := s.clo
  match (Duration.fromMicros (hi <<< 32 + lo)).checkedAdd t with
  | none => .error .panic
  | some sum => do
    let target := sum.asMicros % 2 ^ 32
    let s := (s.idle (wait 2)).writeCompare target
    let (s, n) ← spinLoop wait fuel 3 s
    .ok ((s.idle (wait n)).writeCs 0)

end

/-- A call of `spin_sleep` with its argument and the states in which it starts and returns. -/
structure SleepCall where
  t : Duration
  start : SystemTimer
  stop : SystemTimer

/-- **Runs**: calls of `spin_sleep` for less than `2 ^ 32` microseconds, the last one first,
on any schedule. -/
inductive Sleeps (s : SystemTimer) : List SleepCall → SystemTimer → Prop
  | start : Sleeps s [] s
  | tick {calls : List SleepCall} {s' : SystemTimer} : Sleeps s calls s' →
      Sleeps s calls s'.tick
  | call {calls : List SleepCall} {s' s'' : SystemTimer} {t : Duration} {wait : ℕ → ℕ}
      {fuel : ℕ} : Sleeps s calls s' → t.toNanos < 2 ^ 32 * 1000 →
      spinSleep wait fuel t s' = .ok s'' → Sleeps s (⟨t, s', s''⟩ :: calls) s''

/-- **The property** of a call: it returns only when `t` has elapsed. -/
def SleepCall.LongEnough (c : SleepCall) : Prop :=
  c.t.toNanos ≤ 1000 * (c.stop.count - c.start.count)

/-- **The condition** for a call in state `s`: nothing is to be waited for, or the bit is
clear, the time is a whole number of microseconds, and the counter does not meet the old
value of `COMPARE[0]` while it passes. -/
def MeetsCondition (t : Duration) (s : SystemTimer) : Prop :=
  t.toNanos = 0 ∨ s.cs0 = false ∧ 1000 ∣ t.toNanos ∧
    ∀ j, 0 < j → 1000 * j < t.toNanos → (s.count + j) % 2 ^ 32 ≠ s.compare

namespace SystemTimer

variable {s s' : SystemTimer}

/-- The counter goes on while the program waits. -/
@[simp] theorem idle_count (s : SystemTimer) (k : ℕ) : (s.idle k).count = s.count + k := by
  induction k with
  | zero => rfl
  | succ k ih => simp only [idle, tick, ih, Nat.add_assoc]

/-- Waiting does not change the compare registers. -/
@[simp] theorem idle_compare (s : SystemTimer) (k : ℕ) : (s.idle k).compare = s.compare := by
  induction k with
  | zero => rfl
  | succ k ih => simp only [idle, tick, ih]

/-- Two waits in a row are one. -/
theorem idle_idle (s : SystemTimer) (j k : ℕ) : (s.idle j).idle k = s.idle (j + k) := by
  induction k with
  | zero => rfl
  | succ k ih => rw [idle, ih, ← Nat.add_assoc, idle]

/-- **When the bit is set**: it was, or the counter has met `COMPARE[0]` since. -/
theorem idle_cs0_iff (s : SystemTimer) (k : ℕ) : (s.idle k).cs0 = true ↔
    s.cs0 = true ∨ ∃ j, 0 < j ∧ j ≤ k ∧ (s.count + j) % 2 ^ 32 = s.compare := by
  induction k with
  | zero =>
      simp only [idle]
      refine ⟨Or.inl, fun h => h.resolve_right ?_⟩
      rintro ⟨j, hpos, hle, -⟩
      omega
  | succ k ih =>
      simp only [idle, tick, Bool.or_eq_true, beq_iff_eq, ih, idle_count, idle_compare]
      constructor
      · rintro ((h | ⟨j, hpos, hle, hj⟩) | h)
        · exact Or.inl h
        · exact Or.inr ⟨j, hpos, by omega, hj⟩
        · exact Or.inr ⟨k + 1, by omega, le_rfl, h⟩
      · rintro (h | ⟨j, hpos, hle, hj⟩)
        · exact Or.inl (Or.inl h)
        · rcases Nat.eq_or_lt_of_le hle with rfl | hlt
          · exact Or.inr hj
          · exact Or.inl (Or.inr ⟨j, hpos, by omega, hj⟩)

/-- The target set `k` ticks ahead is met after `k` ticks. -/
theorem writeCompare_idle_cs0 (s : SystemTimer) (k : ℕ) :
    ((s.writeCompare ((s.count + k) % 2 ^ 32)).idle k).cs0 = true := by
  rw [idle_cs0_iff]
  rcases Nat.eq_zero_or_pos k with rfl | hpos
  · left
    simp only [writeCompare, Nat.add_zero, beq_self_eq_true, Bool.or_true]
  · right
    exact ⟨k, hpos, le_rfl, by simp only [writeCompare]⟩

end SystemTimer

/-! ### One call -/

section

variable {wait : ℕ → ℕ} {fuel : ℕ} {t : Duration} {s s' : SystemTimer}

/-- The loop ends when the bit is set, after some ticks. -/
theorem spinLoop_eq_ok {n m : ℕ} (h : spinLoop wait fuel n s = .ok (s', m)) :
    ∃ k, s' = s.idle k ∧ s'.cs0 = true := by
  induction fuel generalizing n s with
  | zero => cases h
  | succ fuel ih =>
      simp only [spinLoop] at h
      split at h
      · obtain ⟨k, rfl, hcs⟩ := ih h
        exact ⟨wait n + k, s.idle_idle _ _, hcs⟩
      · rename_i hcs
        obtain ⟨rfl, -⟩ := Prod.mk.inj (Except.ok.inj h)
        exact ⟨wait n, rfl, by simpa using hcs⟩

/-- The target: the reading of the two halves is the counter as far as 32 bits go, whenever
`CHI` has been read. -/
theorem target_eq {hi lo : ℕ} {sum : Duration}
    (h : (Duration.fromMicros (hi <<< 32 + lo)).checkedAdd t = some sum) :
    sum.asMicros % 2 ^ 32 = (lo + t.toNanos / 1000) % 2 ^ 32 := by
  rw [Duration.asMicros_eq, Duration.toNanos_checkedAdd h, Duration.toNanos_fromMicros,
    Nat.shiftLeft_eq]
  omega

/-- **What a call does**: after `r` ticks it reads `CLO`, after `w` it writes the target, and
then it waits for the bit, which it leaves set. -/
theorem spinSleep_eq_ok (h : spinSleep wait fuel t s = .ok s') :
    ∃ r w e, r ≤ w ∧ s.count + w + e ≤ s'.count ∧
      (((s.idle w).writeCompare ((s.count + r + t.toNanos / 1000) % 2 ^ 32)).idle e).cs0 =
        true ∧ s'.cs0 = true := by
  simp only [spinSleep] at h
  split at h
  · cases h
  · rename_i sum hsum
    cases hloop : spinLoop wait fuel 3
        ((((s.idle (wait 0)).idle (wait 1)).idle (wait 2)).writeCompare
          (sum.asMicros % 2 ^ 32)) with
    | error e => rw [hloop] at h; cases h
    | ok r =>
        obtain ⟨s₁, m⟩ := r
        rw [hloop] at h
        obtain rfl := Except.ok.inj h
        obtain ⟨e, hr, hcs⟩ := spinLoop_eq_ok hloop
        rw [target_eq hsum] at hr
        refine ⟨wait 0 + wait 1, wait 0 + wait 1 + wait 2, e, by omega, ?_, ?_, ?_⟩
        · simp only [SystemTimer.writeCs, SystemTimer.idle_count, hr, SystemTimer.writeCompare]
          omega
        · rw [hr] at hcs
          simpa only [SystemTimer.idle_idle, SystemTimer.clo, SystemTimer.idle_count,
            Nat.mod_add_mod] using hcs
        · have hset := (s₁.idle_cs0_iff (wait m)).mpr (Or.inl hcs)
          simp [SystemTimer.writeCs, hset]

/-- **Long enough**: a sleep that meets the condition. If the bit is set before the target is
written, the old value of `COMPARE[0]` has been met, and that is late enough; if after it,
the counter has met the target. -/
theorem longEnough_of_meets (ht : t.toNanos < 2 ^ 32 * 1000) (hm : MeetsCondition t s)
    (h : spinSleep wait fuel t s = .ok s') :
    t.toNanos ≤ 1000 * (s'.count - s.count) := by
  rcases hm with h0 | ⟨hclear, hwhole, hold⟩
  · omega
  obtain ⟨r, w, e, hrw, hstop, hcs, -⟩ := spinSleep_eq_ok h
  rw [SystemTimer.idle_cs0_iff] at hcs
  simp only [SystemTimer.writeCompare, Bool.or_eq_true, beq_iff_eq, SystemTimer.idle_count,
    SystemTimer.idle_cs0_iff, hclear, Bool.false_eq_true, false_or] at hcs
  rcases hcs with (⟨j, hpos, hle, hj⟩ | hnow) | ⟨j, hpos, hle, hj⟩
  · by_contra hshort
    exact hold j hpos (by omega) hj
  · omega
  · omega

/-! ### Sleeps that return early -/

/-- The schedule on which `w` ticks pass before `COMPARE[0]` is written, `e` before `CS` is
read, and none before the other accesses. -/
def pauses (w e : ℕ) : ℕ → ℕ
  | 2 => w
  | 3 => e
  | _ => 0

/-- On this schedule the call returns after `w + e` ticks if the bit is set then. -/
theorem spinSleep_pauses (ht : t.toNanos < 2 ^ 32 * 1000) {w e : ℕ}
    (hcs : (((s.idle w).writeCompare ((s.count + t.toNanos / 1000) % 2 ^ 32)).idle e).cs0 =
      true) :
    ∃ s', spinSleep (pauses w e) 1 t s = .ok s' ∧ s'.count = s.count + w + e := by
  have hsum : (Duration.fromMicros (s.chi <<< 32 + s.clo)).checkedAdd t ≠ none := by
    refine Duration.checkedAdd_ne_none ?_
    have hw : wordSize = 2 ^ 64 := rfl
    simp only [Duration.toNanos] at ht
    simp only [Duration.fromMicros, SystemTimer.chi, SystemTimer.clo, Nat.shiftLeft_eq]
    omega
  obtain ⟨sum, hsum⟩ := Option.ne_none_iff_exists'.mp hsum
  have htarget := target_eq hsum
  rw [SystemTimer.clo, Nat.mod_add_mod] at htarget
  rw [← htarget] at hcs
  refine ⟨(((s.idle w).writeCompare (sum.asMicros % 2 ^ 32)).idle e).writeCs 0, ?_, ?_⟩
  · simp only [spinSleep, pauses, SystemTimer.idle, hsum, spinLoop, hcs, Bool.true_eq_false,
      if_false]
    rfl
  · simp only [SystemTimer.writeCs, SystemTimer.idle_count, SystemTimer.writeCompare]

/-- **A sleep that does not meet the condition may return too early.** -/
theorem exists_early (ht : t.toNanos < 2 ^ 32 * 1000) (hm : ¬ MeetsCondition t s) :
    ∃ wait fuel s', spinSleep wait fuel t s = .ok s' ∧
      1000 * (s'.count - s.count) < t.toNanos := by
  -- it is enough to have the bit set after too few ticks
  suffices hearly : ∃ w e, 1000 * (w + e) < t.toNanos ∧
      (((s.idle w).writeCompare ((s.count + t.toNanos / 1000) % 2 ^ 32)).idle e).cs0 = true by
    obtain ⟨w, e, hlt, hcs⟩ := hearly
    obtain ⟨s', hs', hcount⟩ := spinSleep_pauses ht hcs
    exact ⟨_, _, s', hs', by omega⟩
  have hpos : t.toNanos ≠ 0 := fun h0 => hm (Or.inl h0)
  have hset : ∀ w, (s.idle w).cs0 = true →
      (((s.idle w).writeCompare ((s.count + t.toNanos / 1000) % 2 ^ 32)).idle 0).cs0 = true := by
    intro w hw
    simp [SystemTimer.idle, SystemTimer.writeCompare, hw]
  cases hcs : s.cs0 with
  | true => exact ⟨0, 0, by omega, hset 0 hcs⟩
  | false =>
      by_cases hwhole : 1000 ∣ t.toNanos
      · -- the old value of `COMPARE[0]` is met on the way
        obtain ⟨j, hj0, hj, hmatch⟩ : ∃ j, 0 < j ∧ 1000 * j < t.toNanos ∧
            (s.count + j) % 2 ^ 32 = s.compare := by
          by_contra hnone
          push Not at hnone
          exact hm (Or.inr ⟨hcs, hwhole, hnone⟩)
        exact ⟨j, 0, by omega, hset j ((s.idle_cs0_iff j).mpr (Or.inr ⟨j, hj0, le_rfl, hmatch⟩))⟩
      · -- the target is rounded down
        refine ⟨0, t.toNanos / 1000, by omega, ?_⟩
        exact (s.idle 0).writeCompare_idle_cs0 (t.toNanos / 1000)

end

/-! ### Runs -/

/-- No call clears the match bit, so that after the first one it stays set. -/
theorem Sleeps.cs0 {s s' : SystemTimer} {calls : List SleepCall} (h : Sleeps s calls s')
    (hne : calls ≠ []) : s'.cs0 = true := by
  induction h with
  | start => exact absurd rfl hne
  | @tick _ s' _ ih => exact (s'.idle_cs0_iff 1).mpr (Or.inl (ih hne))
  | call _ _ hsleep =>
      obtain ⟨-, -, -, -, -, -, hcs⟩ := spinSleep_eq_ok hsleep
      exact hcs

/-- **When every sleep is long enough.** In every run: if each call meets the condition
in the state in which it is made, each returns only when its time has elapsed; in every
state that a run reaches, a further call that does not meet the condition may return before
its time; and after the first call no further one meets it, unless there is nothing to wait
for. -/
theorem spin_sleep_waits {s s' : SystemTimer} {calls : List SleepCall}
    (h : Sleeps s calls s') :
    ((∀ c ∈ calls, MeetsCondition c.t c.start) → ∀ c ∈ calls, c.LongEnough) ∧
      (∀ t, t.toNanos < 2 ^ 32 * 1000 → ¬ MeetsCondition t s' →
        ∃ s'', Sleeps s (⟨t, s', s''⟩ :: calls) s'' ∧ ¬ SleepCall.LongEnough ⟨t, s', s''⟩) ∧
      (calls ≠ [] → ∀ t, MeetsCondition t s' → t.toNanos = 0) := by
  refine ⟨?_, ?_, ?_⟩
  · intro hmeets
    induction h with
    | start => simp
    | tick _ ih => exact ih hmeets
    | call _ ht hsleep ih =>
        rw [List.forall_mem_cons] at hmeets ⊢
        exact ⟨longEnough_of_meets ht hmeets.1 hsleep, ih hmeets.2⟩
  · intro t ht hm
    obtain ⟨wait, fuel, s'', hsleep, hlt⟩ := exists_early ht hm
    exact ⟨s'', h.call ht hsleep, not_le.mpr hlt⟩
  · intro hne t hm
    rcases hm with h0 | ⟨hclear, -⟩
    · exact h0
    · rw [h.cs0 hne] at hclear
      cases hclear

/-- The timer after 10 ticks, with the old value 5 in `COMPARE[0]` and the bit clear. -/
def tenTicks : SystemTimer := ⟨10, 5, false, by simp⟩

/-- One microsecond. -/
def oneMicro : Duration := Duration.fromMicros 1

/-- The timer when a sleep of one microsecond has returned. -/
def elevenTicks : SystemTimer := ⟨11, 11, true, fun _ => rfl⟩

/-- The first sleep ends when the counter has advanced by 1. -/
theorem sleeps_first : Sleeps tenTicks [⟨oneMicro, tenTicks, elevenTicks⟩] elevenTicks := by
  have hcall : spinSleep (pauses 0 1) 1 oneMicro tenTicks = .ok elevenTicks := rfl
  exact Sleeps.start.call (by simp [oneMicro]) hcall

/-- The first sleep waits; the second one, with the match bit still set, does not. -/
theorem spin_sleep_waits_first :
    SleepCall.LongEnough ⟨oneMicro, tenTicks, elevenTicks⟩ ∧
      ∃ s'', Sleeps tenTicks [⟨oneMicro, elevenTicks, s''⟩, ⟨oneMicro, tenTicks, elevenTicks⟩] s'' ∧
        ¬ SleepCall.LongEnough ⟨oneMicro, elevenTicks, s''⟩ := by
  have hmicro : oneMicro.toNanos = 1000 := rfl
  obtain ⟨hlong, hearly, -⟩ := spin_sleep_waits sleeps_first
  constructor
  · refine hlong (fun c hc => ?_) _ List.mem_cons_self
    obtain rfl := List.mem_singleton.mp hc
    refine Or.inr ⟨rfl, ⟨1, rfl⟩, fun j hj hlt => ?_⟩
    have hlt : 1000 * j < 1000 := hlt
    omega
  · refine hearly oneMicro (by omega) ?_
    rintro (h0 | ⟨hclear, -⟩)
    · omega
    · exact absurd hclear (by simp [elevenTicks])

/-- **The defect**: the second of two sleeps of one microsecond returns at once. -/
theorem spin_sleep_twice :
    ¬ ∀ (s : SystemTimer) (calls : List SleepCall) (s' : SystemTimer), s.cs0 = false →
      Sleeps s calls s' → ∀ c ∈ calls, c.LongEnough := by
  intro h
  have hcall : spinSleep (pauses 0 0) 1 oneMicro elevenTicks =
    .ok ⟨11, 12, true, fun _ => rfl⟩ := rfl
  have hlong := h tenTicks _ _ rfl (sleeps_first.call (by simp [oneMicro]) hcall) _
    List.mem_cons_self
  exact absurd hlong (by simp [SleepCall.LongEnough, oneMicro, elevenTicks])

end OsLabs
