import OsLabs.Bin

/-!
# The Bump Allocator

`kern/src/allocator/bump.rs` hands out a region from its start to its end: `alloc` rounds
`current` up to the alignment, returns that address and moves `current` behind the block;
`dealloc` does nothing. A null pointer says that there is no room, or that the size is 0.

The null pointer is the address 0. An allocator whose region starts there hands it out as
its first block: the caller is told that there was no room, and the memory is gone.

Conventions: a result `none` is a panic. A pointer is its address, so 0 is null. `run` is
a sequence of calls, with the allocator before and after each of them.

## Main results

* `Allocator.alloc_spec`: the result of one `alloc`, which does not panic.
* `Allocator.step_cases`: what a call can do.
* `Sound.cons_null`, `Sound.cons_block`: a call in front of a sound run.
* `bump_sound_iff`: a run of any calls ends without a panic, and it is sound exactly under
  the condition.
* `first_block_null`: a first block that is null.
-/

namespace OsLabs.Bump

open Bin (Layout)

/-- `bump::Allocator`; `stop` is the field `end`. -/
structure Allocator where
  current : ℕ
  stop : ℕ
deriving DecidableEq

/-- `usize::saturating_add`. -/
def saturatingAdd (a b : ℕ) : ℕ := min (a + b) (wordSize - 1)

namespace Allocator

/-- `Allocator::new`. -/
def new (start stop : ℕ) : Allocator := ⟨start, stop⟩

/-- `alloc`: the allocator after it and the returned pointer. -/
def alloc (a : Allocator) (layout : Layout) : Option (Allocator × ℕ) := do
  let alignedCurrent ← alignUp a.current layout.align
  if layout.size ≤ 0 then
    some (a, 0)
  else
    let next := saturatingAdd alignedCurrent layout.size
    if next > a.stop then
      some (a, 0)
    else
      some ({ a with current := next }, alignedCurrent)

/-- `dealloc`. -/
def dealloc (a : Allocator) (_ptr : ℕ) (_layout : Layout) : Allocator := a

end Allocator

/-- A call of one of the two functions. -/
inductive Call where
  | alloc (layout : Layout)
  | dealloc (ptr : ℕ) (layout : Layout)

/-- A call of a run: the allocator before and after it and the returned pointer, which is
0 for a `dealloc`. -/
structure Event where
  before : Allocator
  call : Call
  ptr : ℕ
  after : Allocator

/-- The effect of a call. -/
def Allocator.step (a : Allocator) : Call → Option (Allocator × ℕ)
  | .alloc layout => a.alloc layout
  | .dealloc ptr layout => some (a.dealloc ptr layout, 0)

/-- A sequence of calls. -/
def run : List Call → Allocator → Option (List Event)
  | [], _ => some []
  | call :: calls, a => do
    let (a', ptr) ← a.step call
    let events ← run calls a'
    some (⟨a, call, ptr, a'⟩ :: events)

/-- The region that a call returned, if any. -/
def Event.region (e : Event) : Option (ℕ × Layout) :=
  match e.call with
  | .alloc layout => if e.ptr = 0 then none else some (e.ptr, layout)
  | .dealloc _ _ => none

/-- **The property** of a run over the region `[start, stop)`: the blocks returned follow each
other, are inside and aligned, and null is returned exactly when there is no room. -/
structure Sound (start stop : ℕ) (events : List Event) : Prop where
  /-- Each block returned ends before the next one begins. -/
  disjoint : (events.filterMap Event.region).Pairwise fun x y => x.1 + x.2.size ≤ y.1
  /-- The blocks are in the region, and aligned. -/
  inside : ∀ x ∈ events.filterMap Event.region,
    start ≤ x.1 ∧ x.1 + x.2.size ≤ stop ∧ x.2.align ∣ x.1
  /-- With a positive size, null is returned exactly when there is no room. -/
  null_iff : ∀ e ∈ events, ∀ layout, e.call = .alloc layout → 0 < layout.size →
    ∃ aligned, alignUp e.before.current layout.align = some aligned ∧
      (e.ptr = 0 ↔ stop < aligned + layout.size)
  /-- A call that returns null, or nothing, changes nothing. -/
  unchanged : ∀ e ∈ events, e.ptr = 0 → e.after = e.before

/-- **The condition**: the region does not start at address 0, or it is never asked for a
block that it could hold. -/
def NeverNull (start stop : ℕ) (calls : List Call) : Prop :=
  0 < start ∨ ∀ layout, Call.alloc layout ∈ calls → layout.size = 0 ∨ stop < layout.size

/-! ### One call -/

/-- **One `alloc`** below `2 ^ 63`: it does not panic, and it returns the least multiple
of the alignment from `current` on, if the block fits there. -/
theorem Allocator.alloc_spec {a : Allocator} (hle : a.current ≤ a.stop)
    (hlt : a.stop < 2 ^ 63) (layout : Layout) :
    ∃ aligned, alignUp a.current layout.align = some aligned ∧ a.current ≤ aligned ∧
      layout.align ∣ aligned ∧ (a.current = 0 → aligned = 0) ∧
      a.alloc layout =
        if layout.size = 0 ∨ a.stop < aligned + layout.size then some (a, 0)
        else some (⟨aligned + layout.size, a.stop⟩, aligned) := by
  obtain ⟨k, hk⟩ := layout.align_pow
  have hsize := layout.size_add_align_le
  have hw : wordSize = 2 ^ 64 := rfl
  have hk64 : k ≤ 64 := by
    have hpow : 2 ^ k ≤ 2 ^ 63 := by omega
    have := (Nat.pow_le_pow_iff_right (Nat.lt_succ_self 1)).mp hpow
    omega
  have halign := alignUp_two_pow hk64 (show a.current + 2 ^ k < wordSize by omega)
  have hpos : 0 < 2 ^ k := Nat.two_pow_pos k
  have hmod := Nat.div_add_mod (a.current + 2 ^ k - 1) (2 ^ k)
  have hrem := Nat.mod_lt (a.current + 2 ^ k - 1) hpos
  have hzero : a.current = 0 → 2 ^ k * ((a.current + 2 ^ k - 1) / 2 ^ k) = 0 := by
    intro h0
    rw [h0, Nat.div_eq_of_lt (by omega), Nat.mul_zero]
  have hge : a.current ≤ 2 ^ k * ((a.current + 2 ^ k - 1) / 2 ^ k) := by omega
  refine ⟨_, hk ▸ halign, hge, hk ▸ Dvd.intro _ rfl, hzero, ?_⟩
  rw [← hk] at halign hge ⊢
  rw [alloc, halign]
  simp only [Option.bind_eq_bind, Option.bind_some, Nat.le_zero, saturatingAdd, hw]
  by_cases h0 : layout.size = 0
  · rw [if_pos h0, if_pos (Or.inl h0)]
  · rw [if_neg h0]
    by_cases hroom : a.stop < layout.align * ((a.current + layout.align - 1) / layout.align) +
        layout.size
    · rw [if_pos (Or.inr hroom), if_pos (by omega)]
    · rw [if_neg (by omega), if_neg (by omega), Nat.min_eq_left (by omega)]

/-- What a call can do: leave the allocator as it is and return null, or return a block
behind `current` and move `current` behind it. -/
theorem Allocator.step_cases {a : Allocator} (hle : a.current ≤ a.stop)
    (hlt : a.stop < 2 ^ 63) (call : Call) :
    (a.step call = some (a, 0) ∧ ∀ layout, call = .alloc layout → 0 < layout.size →
      ∃ aligned, alignUp a.current layout.align = some aligned ∧
        (a.current = 0 → aligned = 0) ∧ a.stop < aligned + layout.size) ∨
    ∃ layout aligned, call = .alloc layout ∧
      a.step call = some (⟨aligned + layout.size, a.stop⟩, aligned) ∧
      alignUp a.current layout.align = some aligned ∧ a.current ≤ aligned ∧
      layout.align ∣ aligned ∧ (a.current = 0 → aligned = 0) ∧
      0 < layout.size ∧ aligned + layout.size ≤ a.stop := by
  cases call with
  | dealloc ptr layout => exact Or.inl ⟨rfl, fun _ h => by simp at h⟩
  | alloc layout =>
      obtain ⟨aligned, halign, hge, hdvd, hzero, halloc⟩ := a.alloc_spec hle hlt layout
      by_cases hnull : layout.size = 0 ∨ a.stop < aligned + layout.size
      · rw [if_pos hnull] at halloc
        refine Or.inl ⟨halloc, fun layout' heq hpos => ?_⟩
        obtain rfl := Call.alloc.inj heq
        exact ⟨aligned, halign, hzero, hnull.resolve_left (by omega)⟩
      · rw [if_neg hnull] at halloc
        exact Or.inr ⟨layout, aligned, rfl, halloc, halign, hge, hdvd, hzero, by omega, by omega⟩

/-! ### Runs -/

section

variable {start stop : ℕ} {events : List Event}

/-- A run without calls is sound, as there are no pointers to speak of. -/
theorem sound_nil : Sound start stop [] := by
  constructor <;> simp

/-- A sound run without its first call. -/
theorem Sound.tail {e : Event} (h : Sound start stop (e :: events)) :
    Sound start stop events := by
  have hsub : (events.filterMap Event.region).Sublist
      ((e :: events).filterMap Event.region) := (List.sublist_cons_self e events).filterMap _
  exact ⟨h.disjoint.sublist hsub, fun x hx => h.inside x (hsub.subset hx),
    fun e' he' => h.null_iff e' (List.mem_cons_of_mem e he'),
    fun e' he' => h.unchanged e' (List.mem_cons_of_mem e he')⟩

/-- A call in front of a sound run: what is said of single calls holds of all of them once
it holds of the new one. -/
theorem Sound.cons {e : Event} {next : ℕ} (h : Sound next stop events)
    (hdisjoint : ((e :: events).filterMap Event.region).Pairwise fun x y =>
      x.1 + x.2.size ≤ y.1)
    (hinside : ∀ x ∈ (e :: events).filterMap Event.region,
      start ≤ x.1 ∧ x.1 + x.2.size ≤ stop ∧ x.2.align ∣ x.1)
    (hnull : ∀ layout, e.call = .alloc layout → 0 < layout.size →
      ∃ aligned, alignUp e.before.current layout.align = some aligned ∧
        (e.ptr = 0 ↔ stop < aligned + layout.size))
    (hsame : e.ptr = 0 → e.after = e.before) : Sound start stop (e :: events) := by
  refine ⟨hdisjoint, hinside, ?_, ?_⟩
  · rw [List.forall_mem_cons]
    exact ⟨hnull, h.null_iff⟩
  · rw [List.forall_mem_cons]
    exact ⟨hsame, h.unchanged⟩

/-- **A call that returns null**, in front of a sound run. -/
theorem Sound.cons_null {a : Allocator} {call : Call} (h : Sound start a.stop events)
    (hnull : ∀ layout, call = .alloc layout → 0 < layout.size →
      ∃ aligned, alignUp a.current layout.align = some aligned ∧
        a.stop < aligned + layout.size) :
    Sound start a.stop (⟨a, call, 0, a⟩ :: events) := by
  have hregion : Event.region ⟨a, call, 0, a⟩ = none := by
    cases call with
    | alloc layout => rfl
    | dealloc ptr layout => rfl
  refine h.cons ?_ ?_ (fun layout hcall hpos => ?_) fun _ => rfl
  · rw [List.filterMap_cons_none hregion]
    exact h.disjoint
  · rw [List.filterMap_cons_none hregion]
    exact h.inside
  · obtain ⟨aligned, halign, hlt⟩ := hnull layout hcall hpos
    exact ⟨aligned, halign, iff_of_true rfl hlt⟩

/-- **A call that returns a block**, in front of a run that is sound behind the block. -/
theorem Sound.cons_block {a : Allocator} {layout : Layout} {aligned : ℕ}
    (h : Sound (aligned + layout.size) a.stop events)
    (halign : alignUp a.current layout.align = some aligned) (hstart : start ≤ aligned)
    (hdvd : layout.align ∣ aligned) (h0 : aligned ≠ 0)
    (hroom : aligned + layout.size ≤ a.stop) :
    Sound start a.stop
      (⟨a, .alloc layout, aligned, ⟨aligned + layout.size, a.stop⟩⟩ :: events) := by
  have hregion : Event.region ⟨a, .alloc layout, aligned, ⟨aligned + layout.size, a.stop⟩⟩ =
      some (aligned, layout) := if_neg h0
  refine h.cons ?_ ?_ (fun layout' hcall _ => ?_) fun hptr => absurd hptr h0
  · rw [List.filterMap_cons_some hregion, List.pairwise_cons]
    exact ⟨fun x hx => (h.inside x hx).1, h.disjoint⟩
  · rw [List.filterMap_cons_some hregion, List.forall_mem_cons]
    refine ⟨⟨hstart, hroom, hdvd⟩, fun x hx => ?_⟩
    obtain ⟨hlo, hhi, halign⟩ := h.inside x hx
    exact ⟨by omega, hhi, halign⟩
  · obtain rfl := Call.alloc.inj hcall
    exact ⟨aligned, halign, iff_of_false h0 (by omega)⟩

end

/-- A run is its first call followed by the run from there. -/
theorem run_cons {a a' : Allocator} {call : Call} {ptr : ℕ} {calls : List Call}
    {events : List Event} (hstep : a.step call = some (a', ptr))
    (hrun : run calls a' = some events) :
    run (call :: calls) a = some (⟨a, call, ptr, a'⟩ :: events) := by
  rw [run, hstep]
  simp only [Option.bind_eq_bind, Option.bind_some, hrun]

/-- A call that cannot be served from address 0 does not touch the condition. -/
theorem neverNull_cons {start stop : ℕ} {call : Call} {calls : List Call}
    (h : start = 0 → ∀ layout, call = .alloc layout → layout.size = 0 ∨ stop < layout.size) :
    NeverNull start stop (call :: calls) ↔ NeverNull start stop calls := by
  refine or_congr_right' fun h0 => ?_
  constructor
  · exact fun hall layout hmem => hall layout (List.mem_cons_of_mem call hmem)
  · intro hall layout hmem
    rcases List.mem_cons.mp hmem with hcall | hmem
    · exact h (by omega) layout hcall.symm
    · exact hall layout hmem

/-- **A run of any calls** does not panic, and it is sound exactly under the condition.
Induction on the calls; the state moves away from address 0 with the first block. -/
theorem exists_run (calls : List Call) :
    ∀ a : Allocator, a.current ≤ a.stop → a.stop < 2 ^ 63 →
      ∃ events, run calls a = some events ∧
        (Sound a.current a.stop events ↔ NeverNull a.current a.stop calls) := by
  induction calls with
  | nil =>
      intro a _ _
      exact ⟨[], rfl, iff_of_true sound_nil (Or.inr fun _ h => by simp at h)⟩
  | cons call calls ih =>
      intro a hle hlt
      rcases a.step_cases hle hlt call with ⟨hstep, hnull⟩ |
        ⟨layout, aligned, rfl, hstep, halign, hge, hdvd, hzero, hpos, hroom⟩
      · obtain ⟨events, hrun, hiff⟩ := ih a hle hlt
        refine ⟨_, run_cons hstep hrun, ?_⟩
        have hcons : Sound a.current a.stop (⟨a, call, 0, a⟩ :: events) ↔
            Sound a.current a.stop events := by
          refine ⟨Sound.tail, fun h => h.cons_null fun layout hcall hpos => ?_⟩
          obtain ⟨aligned, halign, -, hroom⟩ := hnull layout hcall hpos
          exact ⟨aligned, halign, hroom⟩
        rw [hcons, hiff, neverNull_cons]
        intro h0 layout hcall
        by_contra hnot
        obtain ⟨aligned, -, hzero, hroom⟩ := hnull layout hcall (by omega)
        have := hzero h0
        omega
      · obtain ⟨events, hrun, hiff⟩ := ih ⟨aligned + layout.size, a.stop⟩ hroom hlt
        refine ⟨_, run_cons hstep hrun, ?_⟩
        have hrest : Sound (aligned + layout.size) a.stop events :=
          hiff.mpr (Or.inl (by simp only; omega))
        by_cases h0 : a.current = 0
        · -- the block at address 0 looks like a failure
          refine iff_of_false (fun h => ?_) (fun h => ?_)
          · obtain ⟨aligned', halign', hnull⟩ := h.null_iff _ List.mem_cons_self layout rfl hpos
            obtain rfl : aligned = aligned' := Option.some.inj (halign.symm.trans halign')
            have := hnull.mp (hzero h0)
            omega
          · rcases h with hstart | hall
            · omega
            · have := hall layout List.mem_cons_self
              have := hzero h0
              omega
        · exact iff_of_true (hrest.cons_block halign hge hdvd (by omega) hroom)
            (Or.inl (by omega))

/-- **When the bump allocator is sound over whole runs.** For every region below `2 ^ 63`
and every sequence of calls with valid layouts, no call panics; the blocks returned are
disjoint, in increasing order, inside the region and aligned, null is returned exactly
when there is no room, and a call that returns null changes nothing, if and only if the
region does not start at address 0 or no `alloc` asks for a size from 1 up to its end. -/
theorem bump_sound_iff {start stop : ℕ} (hle : start ≤ stop) (hlt : stop < 2 ^ 63)
    (calls : List Call) :
    ∃ events, run calls (Allocator.new start stop) = some events ∧
      (Sound start stop events ↔ NeverNull start stop calls) :=
  exists_run calls (Allocator.new start stop) hle hlt

/-- Two 32-bit words. -/
def pairLayout : Layout := ⟨8, 4, ⟨2, rfl⟩, by omega⟩

/-- Two blocks, of which the first is given back before the second is asked for. -/
theorem bump_sound_pair :
    16 ≤ 64 ∧ 64 < 2 ^ 63 ∧
      ∃ events, run [.alloc pairLayout, .dealloc 16 pairLayout, .alloc pairLayout]
          (Allocator.new 16 64) = some events ∧
        events.map Event.ptr = [16, 0, 24] ∧ Sound 16 64 events := by
  obtain ⟨events, hrun, hiff⟩ := bump_sound_iff (show 16 ≤ 64 by omega)
    (show 64 < 2 ^ 63 by omega) [.alloc pairLayout, .dealloc 16 pairLayout, .alloc pairLayout]
  have hptr : (run [.alloc pairLayout, .dealloc 16 pairLayout, .alloc pairLayout]
      (Allocator.new 16 64)).map (List.map Event.ptr) = some [16, 0, 24] := by
    decide
  rw [hrun] at hptr
  exact ⟨by omega, by omega, events, hrun, Option.some.inj hptr,
    hiff.mpr (Or.inl (by omega))⟩

/-- **The defect**: in the region `[0, 64)` there is room for eight bytes, the allocator
reserves them, and the pointer it returns is null. -/
theorem first_block_null :
    (Allocator.new 0 64).alloc pairLayout = some (⟨8, 64⟩, 0) ∧
      ∃ events, run [.alloc pairLayout] (Allocator.new 0 64) = some events ∧
        ¬ Sound 0 64 events := by
  obtain ⟨aligned, -, -, -, hzero, halloc⟩ :=
    (Allocator.new 0 64).alloc_spec (show 0 ≤ 64 by omega) (show 64 < 2 ^ 63 by omega) pairLayout
  have hword : (Allocator.new 0 64).alloc pairLayout = some (⟨8, 64⟩, 0) := by
    rw [halloc, hzero rfl]
    rfl
  refine ⟨hword, [⟨⟨0, 64⟩, .alloc pairLayout, 0, ⟨8, 64⟩⟩], run_cons hword rfl, fun h => ?_⟩
  have hsame := h.unchanged _ List.mem_cons_self rfl
  simp at hsame

end OsLabs.Bump
