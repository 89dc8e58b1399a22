import OsLabs.Xv6Table

/-!
# Runs of the Kernel Are Histories of the Table

Every update that a thread, a scheduler or an interrupt makes meets its guard, in every
interleaving, so a run of the kernel refines the abstract machine of the table
(`Run.history`).

The proof is by what each thread knows at its program counter (`Point.Sound`). A thread
keeps this by its own moves (`Thread.sound`), and the moves of others keep it as well
(`Point.Sound.update`): `wait_lock` protects the parents, and the slot that a `fork` is
building has one owner.
-/

namespace OsLabs.Xv6

open Lottery (ProcState)

variable {n : ℕ}

/-! ### What a thread holds and knows -/

namespace Point

/-- Whether the thread holds `wait_lock`. -/
def HoldsWait : Point n → Bool
  | unlockWait _ | waitScan _ _ _ | waitSleep _ | reparent _ _ | exitLock _ => true
  | wake _ _ k => k.HoldsWait
  | _ => false

/-- The slot that the thread is building in `fork`. -/
def owned : Point n → Option (Fin n)
  | forkLink np | forkRun np => some np
  | unlockWait k | yieldLock k | wake _ _ k => k.owned
  | _ => none

/-- What process `p` knows of the table here. -/
def Sound [NeZero n] (t : Table n) (p : Fin n) : Point n → Prop
  | forkLink np => (t.proc np).state = .used
  | forkRun np => (t.proc np).state = .used ∧ (t.proc np).parent = some p
  | exitEnter _ => p ≠ 0
  | reparent rest _ => p ≠ 0 ∧ ∀ j, j ∉ rest → (t.proc j).parent ≠ some p
  | exitLock _ => p ≠ 0 ∧ ∀ j, (t.proc j).parent ≠ some p
  | prioScan _ priority _ => 0 ≤ priority ∧ priority ≤ 20
  | unlockWait k | yieldLock k => k.HoldsWait = false ∧ k.Sound t p
  | wake _ _ k => k.Sound t p
  | _ => True

end Point

namespace Pc

/-- The point at which a thread is, or to which it will come back with its slot's lock
released. -/
def point : Pc n → Point n
  | run k | unlock _ k | yieldSet k | yielded k | sleepSet _ k | slept k | tidy k => k
  | forkCopy np => .forkLink np
  | waitRelease addr => .waitSleep addr
  | exitRelease => .unlockWait .user
  | exitSched | dead => .user

/-- Whether the thread is on a CPU and has not exited. -/
def OnCpu : Pc n → Bool
  | yielded _ | slept _ | exitRelease | exitSched | dead => false
  | _ => true

/-- Whether the thread is about to switch to a scheduler or has done so. -/
def Switching : Pc n → Bool
  | yieldSet _ | yielded _ | sleepSet _ _ | slept _ | tidy _ => true
  | _ => false

/-- What process `p` knows here: its own state, that it does not sleep with `wait_lock`,
and what it knows of the table. -/
structure Sound [NeZero n] (t : Table n) (p : Fin n) (c : Pc n) : Prop where
  running : c.OnCpu → (t.proc p).state = .running
  switching : c.Switching → c.point.HoldsWait = false
  point : c.point.Sound t p

end Pc

variable [NeZero n] {b : Build} {t : Table n} {p q i : Fin n} {u : Update n}
  {tr : List (Update n)} {s s' : State n}

/-- **The invariant of the system**: the table is valid, each thread knows what its place in the
source says of the table, `wait_lock` is held by the threads that stand under it, and no slot is
built by two of them. -/
structure State.Inv (s : State n) : Prop where
  valid : s.table.Valid
  sound : ∀ p, (s.pc p).Sound s.table p
  holdsWait : ∀ p, (s.pc p).point.HoldsWait → s.waitLock = some p
  owned : ∀ p q i, (s.pc p).point.owned = some i → (s.pc q).point.owned = some i → p = q

/-! ### Moves of others -/

/-- The update takes process `q` off its CPU. -/
def Update.Stops (q : Fin n) : Update n → Prop
  | yield i | sleep i _ | exit i _ _ => i = q
  | _ => False

/-- The update leaves alone what process `q` knows at the point `k`. -/
def Update.Spares (q : Fin n) (k : Point n) : Update n → Prop
  | abort i | start i => k.owned ≠ some i
  | link i p => k.owned ≠ some i ∧ p ≠ q
  | reparent _ p => p ≠ q
  | _ => True

/-- A running process stops running only by itself. -/
theorem running_update (hu : u.Guard t) (hs : ¬ u.Stops q)
    (hq : (t.proc q).state = .running) : ((t.update b u).proc q).state = .running := by
  rcases update_proc_cases b t u q with ⟨rfl, he⟩ | ⟨-, he⟩
  · rw [he]
    cases u <;> simp_all [Update.Guard, Update.Stops, Update.slot, Update.body]
  · rwa [he]

/-- A slot under construction is left alone by all but its owner. -/
theorem used_update {k : Point n} (hu : u.Guard t) (hf : u.Spares q k)
    (hk : k.owned = some i) (hi : (t.proc i).state = .used) :
    ((t.update b u).proc i).state = .used ∧
      ((t.proc i).parent = some q → ((t.update b u).proc i).parent = some q) := by
  rcases update_proc_cases b t u i with ⟨rfl, he⟩ | ⟨-, he⟩
  · rw [he]
    cases u <;> simp_all [Update.Guard, Update.Spares, Update.slot, Update.body]
  · rw [he]
    exact ⟨hi, id⟩

/-- An exiting process gets no children by the updates of others. -/
theorem childless_update (hf : ∀ j, u ≠ .link j q) (hq : q ≠ 0)
    (hi : (t.proc i).parent ≠ some q) : ((t.update b u).proc i).parent ≠ some q := by
  intro h
  rcases parent_update h with h | h | ⟨h, -⟩
  · exact hi h
  · exact hf i h
  · exact hq h

omit [NeZero n] in
/-- Such an update gives `q` no child. -/
theorem Update.Spares.ne_link {k : Point n} (hf : u.Spares q k) (j : Fin n) :
    u ≠ .link j q := by
  rintro rfl
  exact hf.2 rfl

/-- **What a thread knows is not disturbed** by the updates of others. -/
theorem Point.Sound.update {k : Point n} (hk : k.Sound t q) (hu : u.Guard t)
    (hf : u.Spares q k) : k.Sound (t.update b u) q := by
  induction k with
  | forkLink np => exact (used_update hu hf rfl hk).1
  | forkRun np =>
    obtain ⟨hstate, hpar⟩ := used_update (b := b) hu hf rfl hk.1
    exact ⟨hstate, hpar hk.2⟩
  | reparent rest st =>
    exact ⟨hk.1, fun j hj => childless_update hf.ne_link hk.1 (hk.2 j hj)⟩
  | exitLock st => exact ⟨hk.1, fun j => childless_update hf.ne_link hk.1 (hk.2 j)⟩
  | unlockWait k ih | yieldLock k ih => exact ⟨hk.1, ih hk.2 hf⟩
  | wake c js k ih => exact ih hk hf
  | _ => exact hk

/-- The slot that a `fork` is building is in use and not started. -/
theorem Point.Sound.used {k : Point n} (hk : k.Sound t q) (hi : k.owned = some i) :
    (t.proc i).state = .used := by
  induction k with
  | forkLink np =>
    obtain rfl : np = i := Option.some.inj hi
    exact hk
  | forkRun np =>
    obtain rfl : np = i := Option.some.inj hi
    exact hk.1
  | unlockWait k ih | yieldLock k ih => exact ih hk.2 hi
  | wake c js k ih => exact ih hk hi
  | _ => simp [Point.owned] at hi

/-- **What a thread knows where it is** survives the updates of others. -/
theorem Pc.Sound.update {c : Pc n} (hc : c.Sound t q) (hu : u.Guard t) (hs : ¬ u.Stops q)
    (hf : u.Spares q c.point) : c.Sound (t.update b u) q :=
  ⟨fun h => running_update hu hs (hc.running h), hc.switching, hc.point.update hu hf⟩

/-! ### Moves of a thread -/

section

variable {a : LockAct n} {w : Option (Update n)} {c c' : Pc n}

/-- **A thread updates the table only as it may.** -/
theorem Thread.guard (h : Thread t p c a w c') (hc : c.Sound t p) : ∀ u ∈ w, u.Guard t := by
  obtain ⟨hr, -, hs⟩ := hc
  rintro u rfl
  cases h <;> simp_all [Update.Guard, Pc.point, Pc.OnCpu, Point.Sound]

/-- A thread is taken off its CPU only by its own moves. -/
theorem Thread.not_stops (h : Thread t p c a w c') (hq : q ≠ p ∨ c'.OnCpu) :
    ∀ u ∈ w, ¬ u.Stops q := by
  rw [ne_comm] at hq
  rintro u rfl
  cases h <;> simp_all [Update.Stops, Pc.OnCpu]

/-- A thread disturbs no thread that builds another slot. -/
theorem Thread.spares (h : Thread t p c a w c') {k : Point n} (hq : q ≠ p)
    (hk : ∀ i, c.point.owned = some i → k.owned ≠ some i) : ∀ u ∈ w, u.Spares q k := by
  have := hq.symm
  rintro u rfl
  cases h <;> simp_all [Update.Spares, Pc.point, Point.owned]

/-- A thread that is on a CPU after its own move was there before. -/
theorem Thread.onCpu (h : Thread t p c a w c') : c'.OnCpu → c.OnCpu := by
  cases h <;> simp [Pc.OnCpu]

omit [NeZero n] in
/-- No thread is preempted while it holds `wait_lock`. -/
theorem Point.not_holdsWait_of_preemptible {k : Point n} (hk : k.Preemptible) :
    k.HoldsWait = false := by
  induction k with
  | wake c js k ih => exact ih hk
  | _ => simp_all [Point.Preemptible, Point.HoldsWait]

/-- What a thread knows after its own move. -/
theorem Thread.sound_point (h : Thread t p c a w c') (hs : c.point.Sound t p)
    (hg : ∀ u ∈ w, u.Guard t) : c'.point.Sound (t.updates b w) p := by
  cases h with
  | callYield hk => exact ⟨Point.not_holdsWait_of_preemptible hk, hs⟩
  | yieldSet | sleepSet | tidy | wakeHit => exact hs.update (hg _ rfl) trivial
  | @forkLink np =>
    have hs : (t.proc np).state = .used := hs
    simp [Pc.point, Point.Sound, Point.HoldsWait, Table.updates, Table.update, Update.slot,
      Update.body, hs]
  | @reparentSkip i rest st hi =>
    refine ⟨hs.1, fun j hj => ?_⟩
    by_cases hji : j = i
    · exact hji ▸ hi
    · exact hs.2 j (by simp [hji, hj])
  | @reparentTake i rest st hi =>
    refine ⟨hs.1, fun j hj => ?_⟩
    by_cases hji : j = i
    · simpa [hji, Table.updates, Table.update, Update.slot, Update.body] using hs.1.symm
    · exact childless_update (by simp) hs.1 (hs.2 j (by simp [hji, hj]))
  | _ => simp_all [Pc.point, Point.Sound, Point.HoldsWait, Table.updates]

/-- A thread that holds `wait_lock` does not switch to the scheduler. -/
theorem Thread.switching (h : Thread t p c a w c') (hc : c.Sound t p) (hs : c'.Switching) :
    c'.point.HoldsWait = false := by
  obtain ⟨-, hw, hp⟩ := hc
  cases h with
  | yieldLock => exact hp.1
  | yieldSet | sleepSet => exact hw rfl
  | waitRelease | sleepLock => rfl
  | _ => simp [Pc.Switching] at hs

/-- **A thread knows what it has done**: what it knew before its own move, changed by that move,
is what it knows after it. -/
theorem Thread.sound (h : Thread t p c a w c') (hc : c.Sound t p) :
    c'.Sound (t.updates b w) p := by
  have hg := h.guard hc
  refine ⟨fun hr => ?_, h.switching hc, h.sound_point hc.point hg⟩
  have hp := hc.running (h.onCpu hr)
  have hn := h.not_stops (.inr hr) (q := p)
  cases w with
  | none => exact hp
  | some u => exact running_update (hg u rfl) (hn u rfl) hp

/-- A thread builds no slot but the one that `allocproc` has given it. -/
theorem Thread.owned (h : Thread t p c a w c') (hi : c'.point.owned = some i) :
    c.point.owned = some i := by
  cases h <;> simp_all [Pc.point, Point.owned]

/-- A thread that is to hold `wait_lock` takes it. -/
theorem Thread.holdsWait (h : Thread t p c a w c') {old : Option (Fin n)}
    (hs : c.point.Sound t p) (hc : c.point.HoldsWait → old = some p)
    (hc' : c'.point.HoldsWait) : a.waitLock p old = some p := by
  cases h <;> simp_all [Pc.point, Point.HoldsWait, Point.Sound, LockAct.waitLock]

/-- A thread releases `wait_lock` only when it holds it. -/
theorem Thread.waitLock_eq (h : Thread t p c a w c')
    (hc : c.point.HoldsWait → s.waitLock = some p) (ha : a.Enabled s)
    (hq : s.waitLock = some q) (hqp : q ≠ p) : a.waitLock p s.waitLock = some q := by
  have := hqp.symm
  cases h <;> simp_all [Pc.point, Point.HoldsWait, LockAct.waitLock, LockAct.Enabled]

end

/-! ### Moves of the system -/

variable {w : Option (Update n)}

/-- A move changes the table by its update. -/
theorem Step.table_eq (h : Step b s w s') : s'.table = s.table.updates b w := by
  cases h <;> rfl

/-- **Every update meets its guard**, as the thread that makes it knows where it is. -/
theorem Step.guard (h : Step b s w s') (hs : s.Inv) : ∀ u ∈ w, u.Guard s.table := by
  cases h with
  | thread h _ => exact h.guard (hs.sound _)
  | alloc r hp hl hi => simp [Update.Guard, hi]
  | dispatch hl hp hc => simp [Update.Guard, hp]
  | look | drop => simp
  | interrupt hl hi hc => simp [Update.Guard, hi]

/-- A move keeps the table valid, whether or not it changes a slot. -/
theorem Table.Valid.updates (hv : t.Valid) (hg : ∀ u ∈ w, u.Guard t) :
    (t.updates b w).Valid := by
  cases w with
  | none => exact hv
  | some u => exact hv.update (hg u rfl)

/-- An update that stops nobody and touches no slot under construction. -/
def Update.Mild : Update n → Prop
  | alloc _ _ _ | dispatch _ | wake _ => True
  | _ => False

/-- The other updates are made by a thread. -/
theorem Step.thread_of (h : Step b s (some u) s') (hu : ¬ u.Mild) :
    ∃ p a c c', s.pc p = c ∧ s'.pc p = c' ∧ Thread s.table p c a (some u) c' ∧
      a.Enabled s := by
  generalize hw : some u = w at h
  cases h with
  | @thread p a w c h ha => exact ⟨p, a, s.pc p, c, rfl, by simp, hw ▸ h, ha⟩
  | look | drop => cases hw
  | _ =>
    obtain rfl := Option.some.inj hw
    exact absurd trivial hu

/-- An update that stops nobody and touches no slot under construction disturbs no thread. -/
theorem Pc.Sound.update_mild {c : Pc n} (hc : c.Sound t q) (hu : u.Guard t) (hm : u.Mild) :
    c.Sound (t.update b u) q := by
  refine hc.update hu ?_ ?_ <;> cases u <;> simp_all [Update.Mild, Update.Stops, Update.Spares]

/-- The invariant holds after the boot, when only `initproc` is there. -/
theorem State.Inv.boot (b : Build) (r : ℕ) : (boot b r : State n).Inv where
  valid := boot_valid b r
  sound := by
    intro p
    by_cases hp : p = 0 <;> constructor <;>
      simp [Xv6.boot, Pc.OnCpu, Pc.point, Point.Sound, Point.HoldsWait, hp]
  holdsWait := by
    intro p
    by_cases hp : p = 0 <;> simp [Xv6.boot, Pc.point, Point.HoldsWait, hp]
  owned := by
    intro p q i
    by_cases hp : p = 0 <;> simp [Xv6.boot, Pc.point, Point.owned, hp]

/-- **The move of a thread keeps the invariant**: it knows what it has done, and it disturbs no
other thread. -/
theorem State.Inv.thread {a : LockAct n} {c : Pc n} (hs : s.Inv)
    (h : Thread s.table p (s.pc p) a w c) (ha : a.Enabled s) :
    State.Inv ⟨s.table.updates b w, a.waitLock p s.waitLock, a.lock p s.lock,
      Function.update s.pc p c⟩ where
  valid := hs.valid.updates (h.guard (hs.sound p))
  sound := by
    intro q
    dsimp only
    by_cases hq : q = p
    · subst hq
      simpa using h.sound (hs.sound q)
    · have hg := h.guard (hs.sound p)
      have hn := h.not_stops (.inl hq)
      have hf : ∀ u ∈ w, u.Spares q (s.pc q).point := by
        refine h.spares hq fun i hi hi' => hq ?_
        exact hs.owned q p i hi' hi
      rw [Function.update_of_ne hq]
      cases w with
      | none => exact hs.sound q
      | some u => exact (hs.sound q).update (hg u rfl) (hn u rfl) (hf u rfl)
  holdsWait := by
    intro q hw
    dsimp only at hw ⊢
    by_cases hq : q = p
    · subst hq
      rw [Function.update_self] at hw
      exact h.holdsWait (hs.sound q).point (hs.holdsWait q) hw
    · rw [Function.update_of_ne hq] at hw
      exact h.waitLock_eq (hs.holdsWait p) ha (hs.holdsWait q hw) hq
  owned := by
    have key : ∀ q i, (Function.update s.pc p c q).point.owned = some i →
        (s.pc q).point.owned = some i := by
      intro q i hi
      by_cases hq : q = p
      · subst hq
        rw [Function.update_self] at hi
        exact h.owned hi
      · rwa [Function.update_of_ne hq] at hi
    intro q r i hqi hri
    exact hs.owned q r i (key q i hqi) (key r i hri)

omit [NeZero n] in
/-- Who owns a slot after `allocproc` has taken slot `i` for thread `p`. -/
theorem owned_of_alloc {pc : Fin n → Pc n} {j : Fin n} (hpi : p ≠ i)
    (hfree : ∀ q, (pc q).point.owned ≠ some i)
    (hj : (Function.update (Function.update pc i (.yielded .user)) p (.forkCopy i) q).point.owned =
      some j) :
    (q = p ∧ j = i) ∨ ((pc q).point.owned = some j ∧ j ≠ i) := by
  by_cases hqp : q = p
  · exact .inl ⟨hqp, by simpa [hqp, Pc.point, Point.owned, eq_comm] using hj⟩
  · by_cases hqi : q = i
    · simp [hqi, hpi.symm, Pc.point, Point.owned] at hj
    · have hqj : (pc q).point.owned = some j := by simpa [hqp, hqi] using hj
      refine .inr ⟨hqj, ?_⟩
      rintro rfl
      exact hfree q hqj

/-- `allocproc` gives the free slot to the thread that found it. -/
theorem State.Inv.alloc {rest : List (Fin n)} {r : ℕ} (hs : s.Inv)
    (hp : s.pc p = .run (.allocScan (i :: rest))) (hi : (s.table.proc i).state = .unused)
    (l : Fin n → Option (Holder n)) :
    State.Inv ⟨s.table.update b (.alloc i s.table.nextpid r), s.waitLock, l,
      Function.update (Function.update s.pc i (.yielded .user)) p (.forkCopy i)⟩ := by
  have hg : (Update.alloc i s.table.nextpid r).Guard s.table := ⟨hi, rfl⟩
  have hrun : (s.table.proc p).state = .running := (hs.sound p).running (by simp [hp, Pc.OnCpu])
  have hpi : p ≠ i := by
    rintro rfl
    simp [hi] at hrun
  have hfree : ∀ q, (s.pc q).point.owned ≠ some i := by
    intro q hq
    simp [(hs.sound q).point.used hq] at hi
  refine ⟨hs.valid.update hg, ?_, ?_, ?_⟩
  · intro q
    dsimp only
    by_cases hq : q = p
    · subst hq
      rw [Function.update_self]
      refine ⟨fun _ => running_update hg (by simp [Update.Stops]) hrun, ?_, ?_⟩
      · simp [Pc.Switching]
      · simp [Pc.point, Point.Sound, Table.update, Update.slot, Update.body]
    · rw [Function.update_of_ne hq]
      by_cases hqi : q = i
      · rw [hqi, Function.update_self]
        exact ⟨by simp [Pc.OnCpu], fun _ => rfl, trivial⟩
      · rw [Function.update_of_ne hqi]
        exact (hs.sound q).update_mild hg trivial
  · intro q hq
    dsimp only at hq ⊢
    by_cases hqp : q = p
    · simp [hqp, Pc.point, Point.HoldsWait] at hq
    · by_cases hqi : q = i
      · simp [hqi, hpi.symm, Pc.point, Point.HoldsWait] at hq
      · exact hs.holdsWait q (by simpa [hqp, hqi] using hq)
  · intro q r j hq hr
    rcases owned_of_alloc hpi hfree hq with ⟨rfl, hj⟩ | ⟨hq, hj⟩
    · rcases owned_of_alloc hpi hfree hr with ⟨rfl, -⟩ | ⟨-, hj'⟩
      · rfl
      · exact absurd hj hj'
    · rcases owned_of_alloc hpi hfree hr with ⟨-, hj'⟩ | ⟨hr, -⟩
      · exact absurd hj' hj
      · exact hs.owned q r j hq hr

omit [NeZero n] in
/-- A dispatched thread goes on at the point it has left. -/
theorem Resumes.point_eq {c c' : Pc n} (h : Resumes p c c') : c'.point = c.point := by
  cases h <;> rfl

omit [NeZero n] in
/-- It has switched to the scheduler before. -/
theorem Resumes.switching {c c' : Pc n} (h : Resumes p c c') : c.Switching := by
  cases h <;> rfl

/-- A dispatched thread goes on at the point where it was. -/
theorem State.Inv.dispatch {c : Pc n} (hs : s.Inv) (hp : (s.table.proc p).state = .runnable)
    (hc : Resumes p (s.pc p) c) (l : Fin n → Option (Holder n)) :
    State.Inv ⟨s.table.update b (.dispatch p), s.waitLock, l, Function.update s.pc p c⟩ := by
  have hg : (Update.dispatch p).Guard s.table := hp
  have hpt : ∀ q, (Function.update s.pc p c q).point = (s.pc q).point := by
    intro q
    by_cases hq : q = p
    · subst hq
      rw [Function.update_self, hc.point_eq]
    · rw [Function.update_of_ne hq]
  refine ⟨hs.valid.update hg, ?_, ?_, ?_⟩
  · intro q
    dsimp only
    refine ⟨fun hq => ?_, fun hq => ?_, ?_⟩
    · by_cases hqp : q = p
      · simp [hqp, Table.update, Update.slot, Update.body]
      · rw [Function.update_of_ne hqp] at hq
        exact running_update hg (by simp [Update.Stops]) ((hs.sound q).running hq)
    · rw [hpt q]
      refine (hs.sound q).switching ?_
      by_cases hqp : q = p
      · subst hqp
        exact hc.switching
      · rwa [Function.update_of_ne hqp] at hq
    · rw [hpt q]
      exact (hs.sound q).point.update hg trivial
  · intro q
    dsimp only
    rw [hpt q]
    exact hs.holdsWait q
  · intro q r i
    dsimp only
    rw [hpt q, hpt r]
    exact hs.owned q r i

/-- **The invariant holds after every move**, of a thread, a scheduler or an interrupt. -/
theorem State.Inv.step (hs : s.Inv) (h : Step b s w s') : s'.Inv := by
  have hg := h.guard hs
  cases h with
  | thread h ha => exact hs.thread h ha
  | alloc r hp hl hi => exact hs.alloc hp hi _
  | dispatch hl hp hc => exact hs.dispatch hp hc _
  | look | drop => exact ⟨hs.valid, hs.sound, hs.holdsWait, hs.owned⟩
  | interrupt hl hi hc =>
    exact ⟨hs.valid.update (hg _ rfl), fun q => (hs.sound q).update_mild (hg _ rfl) trivial,
      hs.holdsWait, hs.owned⟩

/-- The invariant holds in every reachable state. -/
theorem Run.inv (h : Run b tr s) : s.Inv := by
  induction h with
  | boot r => exact State.Inv.boot b r
  | step _ h ih => exact ih.step h

/-- **Every run of the kernel is a history of the table.** -/
theorem Run.history (h : Run b tr s) : History b tr s.table := by
  induction h with
  | boot r => exact History.boot r
  | @step tr s s' w hr h ih =>
    rw [h.table_eq]
    have hg := h.guard hr.inv
    cases w with
    | none => exact ih
    | some u => exact ih.update (hg u rfl)

end OsLabs.Xv6
