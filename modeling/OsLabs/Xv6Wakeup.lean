import OsLabs.Xv6Calls
import OsLabs.Xv6Refinement

/-!
# No Exit Is Missed by a Waiting Parent

A parent that finds no zombie among its children goes to sleep in `wait`, and an exiting
child wakes its parent before it becomes a zombie. `wait_lock` and the lock of the parent's
slot make the two exclude each other: the parent takes its own lock before it releases
`wait_lock` and keeps it until it is asleep, so the child's `wakeup`, which comes under
`wait_lock` and locks the parent's slot, cannot fall in between.

A process is *committed* to sleep in `wait` from the release of `wait_lock` on
(`State.Committed`). Three facts hold in every state (`State.Awake`):

* a thread holds the slot locks that its program counter says;
* a scanning parent has no zombie among the children it has passed, and an exiting
  process's parent is not committed once the `wakeup` has passed it (`Point.Critical`);
* a committed process with a zombie child is `initproc`, and the `wakeup(initproc)` of a
  `reparent` is still to come to its slot.
-/

namespace OsLabs.Xv6

open Lottery (ProcState)

variable {n : ℕ} {p q i v : Fin n}

/-! ### Slot locks -/

/-- The slot whose lock the thread of process `p` holds. -/
def Pc.held (p : Fin n) : Pc n → Option (Fin n)
  | unlock i _ => some i
  | forkCopy np => some np
  | yieldSet _ | waitRelease _ | sleepSet _ _ | tidy _ | exitRelease | exitSched => some p
  | run _ | yielded _ | slept _ | dead => none

/-- Every thread has the lock that it holds by its program counter. -/
def State.Locked (s : State n) : Prop :=
  ∀ p i, (s.pc p).held p = some i → s.lock i = some (.thread p)

/-- A lock that is held keeps its holder when another one changes hands. -/
theorem update_lock_eq {l : Fin n → Option (Holder n)} {j : Fin n} {x : Option (Holder n)}
    (hj : l j ≠ some (.thread q)) (hi : l i = some (.thread q)) :
    Function.update l j x i = some (.thread q) := by
  rw [Function.update_of_ne, hi]
  rintro rfl
  exact hj hi

variable [NeZero n] {b : Build} {t : Table n} {u : Update n} {w : Option (Update n)}
  {tr : List (Update n)} {s s' : State n} {a : LockAct n} {c c' : Pc n}

/-- A thread has the lock that its program counter says after its own move. -/
theorem Thread.held (h : Thread t p c a w c') {l : Fin n → Option (Holder n)}
    (hc : ∀ i, c.held p = some i → l i = some (.thread p)) (hi : c'.held p = some i) :
    a.lock p l i = some (.thread p) := by
  cases h <;> simp_all [Pc.held, LockAct.lock]

/-- A thread releases only its own locks. -/
theorem Thread.lock_eq (h : Thread t p c a w c')
    (hc : ∀ i, c.held p = some i → s.lock i = some (.thread p)) (ha : a.Enabled s)
    (hi : s.lock i = some (.thread q)) (hq : q ≠ p) :
    a.lock p s.lock i = some (.thread q) := by
  have hqp := hq.symm
  have key : ∀ j x, s.lock j ≠ some (.thread q) →
      Function.update s.lock j x i = some (.thread q) := fun _ _ hj => update_lock_eq hj hi
  cases h <;> simp_all [Pc.held, LockAct.lock, LockAct.Enabled]

/-- Every step keeps the locks with the threads that hold them. -/
theorem State.Locked.step (hl : s.Locked) (h : Step b s w s') : s'.Locked := by
  intro q j hj
  cases h with
  | @thread p a w c h ha =>
    dsimp only at hj ⊢
    by_cases hq : q = p
    · subst hq
      rw [Function.update_self] at hj
      exact h.held (hl q) hj
    · rw [Function.update_of_ne hq] at hj
      exact h.lock_eq (hl p) ha (hl q j hj) hq
  | @alloc p i rest r hp hi hs =>
    dsimp only at hj ⊢
    by_cases hq : q = p
    · obtain rfl : i = j := by simpa [hq, Pc.held] using hj
      simp [hq]
    · rw [Function.update_of_ne hq] at hj
      by_cases hqi : q = i
      · simp [hqi, Pc.held] at hj
      · rw [Function.update_of_ne hqi] at hj
        exact update_lock_eq (by simp [hi]) (hl q j hj)
  | @dispatch p c hp hs hc =>
    dsimp only at hj ⊢
    by_cases hq : q = p
    · subst hq
      rw [Function.update_self] at hj
      obtain rfl : q = j := by
        generalize s.pc q = c₀ at hc
        cases hc <;> simpa [Pc.held] using hj
      simp
    · rw [Function.update_of_ne hq] at hj
      exact update_lock_eq (by simp [hp]) (hl q j hj)
  | look hi | drop hi | interrupt hi => exact update_lock_eq (by simp [hi]) (hl q j hj)

/-! ### Commitment -/

/-- The process sleeps in `wait`, or has released `wait_lock` to do so. -/
def State.Committed (s : State n) (v : Fin n) : Prop :=
  ((s.table.proc v).state = .sleeping ∧ (s.table.proc v).chan = some (.proc v)) ∨
    ∃ k, s.pc v = .sleepSet (.proc v) k

/-- A sleeper slept before, on the same channel, or goes to sleep with this update. -/
theorem sleeping_update (hu : u.Guard t) (h : ((t.update b u).proc v).state = .sleeping) :
    ((t.proc v).state = .sleeping ∧ ((t.update b u).proc v).chan = (t.proc v).chan) ∨
      ∃ c, u = .sleep v c ∧ ((t.update b u).proc v).chan = some c := by
  rcases update_proc_cases b t u v with ⟨rfl, he⟩ | ⟨-, he⟩
  · rw [he] at h ⊢
    cases u with
    | kill j pid => simp [Update.body] at h
    | _ => simp_all [Update.Guard, Update.body, Update.slot]
  · exact .inl (he ▸ ⟨h, rfl⟩)

/-- What a move does to one program counter. -/
theorem Step.pc_cases (h : Step b s w s') (q : Fin n) :
    s'.pc q = s.pc q ∨ (∃ a, Thread s.table q (s.pc q) a w (s'.pc q) ∧ a.Enabled s) ∨
      Resumes q (s.pc q) (s'.pc q) ∨
      (∃ i rest, s.pc q = .run (.allocScan (i :: rest)) ∧ s'.pc q = .forkCopy i) ∨
      ((s.table.proc q).state = .unused ∧ s'.pc q = .yielded .user) := by
  cases h with
  | @thread p a w c h ha =>
    by_cases hq : q = p
    · subst hq
      exact .inr (.inl ⟨a, by simpa using h, ha⟩)
    · exact .inl (by simp [hq])
  | @alloc p i rest r hp hi hs =>
    by_cases hq : q = p
    · exact .inr (.inr (.inr (.inl ⟨i, rest, hq ▸ hp, by simp [hq]⟩)))
    · by_cases hqi : q = i
      · exact .inr (.inr (.inr (.inr ⟨hqi ▸ hs, by rw [← hqi]; simp [hq]⟩)))
      · exact .inl (by simp [hq, hqi])
  | @dispatch p c hp hs hc =>
    by_cases hq : q = p
    · subst hq
      exact .inr (.inr (.inl (by simpa using hc)))
    · exact .inl (by simp [hq])
  | look | drop | interrupt => exact .inl rfl

/-- A thread sleeps only after it has prepared to. -/
theorem Step.sleep_inv {ch : Chan n} (h : Step b s (some (.sleep v ch)) s') :
    ∃ k, s.pc v = .sleepSet ch k := by
  obtain ⟨q, a, c, c', hc, -, hth, -⟩ := h.thread_of (by simp [Update.Mild])
  cases hth with
  | @sleepSet ch k => exact ⟨k, hc⟩

/-- A thread comes to sleep on its own channel from `wait` only. -/
theorem Thread.sleepSet_inv {k : Point n} (h : Thread t p c a w (.sleepSet (.proc p) k)) :
    w = none ∧ ∃ addr, c = .waitRelease addr := by
  cases h
  exact ⟨rfl, _, rfl⟩

/-- The same for a step of the system. -/
theorem Step.sleepSet_of {k : Point n} (h : Step b s w s')
    (hk : s'.pc v = .sleepSet (.proc v) k) : s.pc v = .sleepSet (.proc v) k ∨
      (w = none ∧ (∃ addr, s.pc v = .waitRelease addr) ∧ s'.pc v ≠ s.pc v) := by
  rcases h.pc_cases v with he | ⟨a, hth, -⟩ | hr | ⟨i, rest, -, he⟩ | ⟨-, he⟩
  · exact .inl (he ▸ hk)
  · rw [hk] at hth
    obtain ⟨hw, addr, hc⟩ := hth.sleepSet_inv
    exact .inr ⟨hw, ⟨addr, hc⟩, by simp [hk, hc]⟩
  · rw [hk] at hr
    generalize s.pc v = c₀ at hr
    cases hr
  · rw [hk] at he
    cases he
  · rw [hk] at he
    cases he

/-- **A process commits itself only by releasing `wait_lock`** in `wait`. -/
theorem State.Committed.of_step (h : Step b s w s') (hs : s.Inv) (hv : s'.Committed v) :
    s.Committed v ∨ (w = none ∧ (∃ addr, s.pc v = .waitRelease addr) ∧ s'.pc v ≠ s.pc v) := by
  have hg := h.guard hs
  have ht := h.table_eq
  rcases hv with ⟨hstate, hchan⟩ | ⟨k, hk⟩
  · rw [ht] at hstate hchan
    cases w with
    | none => exact .inl (.inl ⟨hstate, hchan⟩)
    | some u =>
      rcases sleeping_update (hg u rfl) hstate with ⟨hsl, he⟩ | ⟨ch, rfl, he⟩
      · exact .inl (.inl ⟨hsl, he ▸ hchan⟩)
      · obtain rfl : ch = .proc v := Option.some.inj (he.symm.trans hchan)
        exact .inl (.inr h.sleep_inv)
  · rcases h.sleepSet_of hk with hk | hr
    · exact .inl (.inr ⟨k, hk⟩)
    · exact .inr hr

/-! ### What is known under `wait_lock` -/

/-- Whether this is the lock of an exiting process's own slot. -/
def Point.isExitLock : Point n → Bool
  | exitLock _ => true
  | _ => false

/-- What a thread that holds `wait_lock` knows of the exits: a scanning parent has passed no
zombie, and an exiting process has woken its parent if the `wakeup` has passed it. -/
def Point.Critical (s : State n) (p : Fin n) : Point n → Prop
  | waitScan _ rest _ => ∀ j, j ∉ rest →
      (s.table.proc j).parent = some p → (s.table.proc j).state ≠ .zombie
  | waitSleep _ => ∀ j, (s.table.proc j).parent = some p → (s.table.proc j).state ≠ .zombie
  | exitLock _ => ∀ v, (s.table.proc p).parent = some v → ¬ s.Committed v
  | wake chan js k =>
    if k.isExitLock then
      chan = (s.table.proc p).parent.map .proc ∧
        ∀ v, (s.table.proc p).parent = some v → v ∉ js → ¬ s.Committed v
    else k.Critical s p
  | _ => True

omit [NeZero n] in
/-- What an exiting process knows while it wakes its parent. -/
theorem Point.critical_wake_exitLock {chan : Option (Chan n)} {js : List (Fin n)}
    {k : Point n} (hx : k.isExitLock = true) :
    (Point.wake chan js k).Critical s p ↔ chan = (s.table.proc p).parent.map .proc ∧
      ∀ v, (s.table.proc p).parent = some v → v ∉ js → ¬ s.Committed v := by
  simp [Critical, hx]

omit [NeZero n] in
/-- Any other `wakeup` does not matter for what a thread knows. -/
theorem Point.critical_wake {chan : Option (Chan n)} {js : List (Fin n)} {k : Point n}
    (hx : k.isExitLock = false) :
    (Point.wake chan js k).Critical s p ↔ k.Critical s p := by
  simp [Critical, hx]

omit [NeZero n] in
/-- Without `wait_lock` nothing is claimed. -/
theorem Point.critical_of_not_holdsWait {k : Point n} (hk : k.HoldsWait = false) :
    k.Critical s p := by
  induction k with
  | wake chan js k ih =>
    have hx : k.isExitLock = false := by cases k <;> simp_all [HoldsWait, isExitLock]
    exact (critical_wake hx).mpr (ih hk)
  | _ => simp_all [HoldsWait, Critical]

/-- The updates that are made under `wait_lock`. -/
def Update.Familial : Update n → Bool
  | link _ _ | reparent _ _ | exit _ _ _ | reap _ _ _ _ => true
  | _ => false

/-- Parents and zombies change under `wait_lock` only. -/
theorem Thread.familial (h : Thread t p c a (some u) c') (hu : u.Familial) :
    (c.point.HoldsWait ∨ a = .acquireWait) ∧ c' ≠ c := by
  cases h <;> simp_all [Update.Familial, Pc.point, Point.HoldsWait]

/-- While a thread holds `wait_lock`, the others leave parents and exits alone. -/
theorem Step.not_familial (h : Step b s w s') (hs : s.Inv) (hq : s.waitLock = some q)
    (he : s'.pc q = s.pc q) : ∀ u ∈ w, u.Familial = false := by
  rintro u rfl
  by_contra hu
  have hu : u.Familial := by simpa using hu
  have hm : ¬ u.Mild := by cases u <;> simp_all [Update.Familial, Update.Mild]
  obtain ⟨p, a, c, c', rfl, rfl, hth, ha⟩ := h.thread_of hm
  obtain ⟨hp | rfl, hne⟩ := hth.familial hu
  · obtain rfl : q = p := Option.some.inj (hq.symm.trans (hs.holdsWait p hp))
    exact hne he
  · simp [LockAct.Enabled, hq] at ha

/-- Only `exit` makes a zombie. -/
theorem zombie_update_inv (hu : u.Guard t) (hi : ((t.update b u).proc i).state = .zombie) :
    (t.proc i).state = .zombie ∨ ∃ pid st, u = .exit i pid st := by
  rcases update_proc_cases b t u i with ⟨rfl, he⟩ | ⟨-, he⟩
  · rw [he] at hi
    cases u with
    | kill j pid => exact .inl (by simpa [Update.body] using hi)
    | _ => simp_all [Update.Guard, Update.body, Update.slot]
  · exact .inl (he ▸ hi)

/-- Any other update keeps the parents, but for a slot that `fork` gives up. -/
theorem parent_update_eq (hf : u.Familial = false) :
    ((t.update b u).proc i).parent = (t.proc i).parent ∨ u = .abort i := by
  rcases update_proc_cases b t u i with ⟨rfl, he⟩ | ⟨-, he⟩
  · rw [he]
    cases u <;> simp_all [Update.body, Update.slot, Update.Familial]
  · exact .inl (by rw [he])

/-- Without such an update a zombie was one before. -/
theorem Step.zombie_of (h : Step b s w s') (hs : s.Inv) (hf : ∀ u ∈ w, u.Familial = false)
    (hi : (s'.table.proc i).state = .zombie) : (s.table.proc i).state = .zombie := by
  have hg := h.guard hs
  rw [h.table_eq] at hi
  cases w with
  | none => exact hi
  | some u =>
    rcases zombie_update_inv (hg u rfl) hi with hi | ⟨pid, st, rfl⟩
    · exact hi
    · cases hf _ rfl

/-- Without such an update a process has the parent it had. -/
theorem Step.parent_eq (h : Step b s w s') (hs : s.Inv) (hf : ∀ u ∈ w, u.Familial = false)
    (hi : (s.table.proc i).state ≠ .used) :
    (s'.table.proc i).parent = (s.table.proc i).parent := by
  have hg := h.guard hs
  rw [h.table_eq]
  cases w with
  | none => rfl
  | some u =>
    rcases parent_update_eq (b := b) (t := s.table) (i := i) (hf u rfl) with he | rfl
    · exact he
    · exact absurd (hg _ rfl) hi

/-- The knowledge under `wait_lock` outlasts a move that leaves parents and exits alone and
commits nobody. -/
theorem Point.Critical.step {k : Point n} (hk : k.Critical s q) (h : Step b s w s')
    (hs : s.Inv) (hq : (s.table.proc q).state = .running)
    (hf : ∀ u ∈ w, u.Familial = false) (hc : ∀ v, s'.Committed v → s.Committed v) :
    k.Critical s' q := by
  have hp : (s'.table.proc q).parent = (s.table.proc q).parent :=
    h.parent_eq hs hf (by simp [hq])
  have hz : ∀ j, (s'.table.proc j).parent = some q → (s'.table.proc j).state = .zombie →
      (s.table.proc j).parent = some q ∧ (s.table.proc j).state = .zombie := by
    intro j hj hz
    have hz := h.zombie_of hs hf hz
    exact ⟨(h.parent_eq hs hf (by simp [hz])).symm.trans hj, hz⟩
  induction k with
  | waitScan addr rest havekids =>
    exact fun j hj hpar hst => hk j hj (hz j hpar hst).1 (hz j hpar hst).2
  | waitSleep addr => exact fun j hpar hst => hk j (hz j hpar hst).1 (hz j hpar hst).2
  | exitLock st => exact fun v hv hcv => hk v (hp ▸ hv) (hc v hcv)
  | wake chan js k ih =>
    cases hx : k.isExitLock with
    | true =>
      rw [critical_wake_exitLock hx] at hk ⊢
      exact ⟨hp ▸ hk.1, fun v hv hj hcv => hk.2 v (hp ▸ hv) hj (hc v hcv)⟩
    | false =>
      rw [critical_wake hx] at hk ⊢
      exact ih hk
  | _ => trivial

/-- Nobody commits while another thread holds `wait_lock`. -/
theorem Step.committed_of (h : Step b s w s') (hs : s.Inv)
    (hq : s.waitLock = some q) (hr : ∀ addr, s.pc q = .waitRelease addr → s'.pc q = s.pc q)
    (hv : s'.Committed v) : s.Committed v := by
  rcases hv.of_step h hs with hv | ⟨-, ⟨addr, hpc⟩, hne⟩
  · exact hv
  · have hwait := hs.holdsWait v (by simp [hpc, Pc.point, Point.HoldsWait])
    obtain rfl : q = v := Option.some.inj (hq.symm.trans hwait)
    exact absurd (hr addr hpc) hne

/-- A thread that holds `wait_lock` is running, but for an exit that is over. -/
theorem Pc.Sound.running_of_holdsWait (hc : c.Sound t p) (hw : c.point.HoldsWait) :
    (t.proc p).state = .running ∨ c = .exitRelease := by
  obtain ⟨hr, hsw, -⟩ := hc
  cases c <;> simp_all [Pc.OnCpu, Pc.Switching, Pc.point, Point.HoldsWait]

/-- What a thread knows remains true while it does not move. -/
theorem critical_of_pc_eq (hk : (s.pc q).point.Critical s q) (h : Step b s w s') (hs : s.Inv)
    (he : s'.pc q = s.pc q) : (s'.pc q).point.Critical s' q := by
  rw [he]
  by_cases hw : (s.pc q).point.HoldsWait
  · have hq := hs.holdsWait q hw
    rcases (hs.sound q).running_of_holdsWait hw with hr | hx
    · exact hk.step h hs hr (h.not_familial hs hq he) fun v hv =>
        h.committed_of hs hq (fun _ _ => he) hv
    · simp [hx, Pc.point, Point.Critical]
  · exact Point.critical_of_not_holdsWait (by simpa using hw)

omit [NeZero n] in
/-- A process whose slot's lock is free is committed only if it sleeps. -/
theorem not_committed_of_unlocked (hl : s.Locked) (hi : s.lock i = none)
    (hne : ¬ ((s.table.proc i).state = .sleeping ∧ (s.table.proc i).chan = some (.proc i))) :
    ¬ s.Committed i := by
  rintro (hsl | ⟨k, hk⟩)
  · exact hne hsl
  · have := hl i i (by simp [hk, Pc.held])
    simp [hi] at this

/-- A sleeper whose slot's lock is free is not committed once it has been woken. -/
theorem not_committed_of_wake (h : Step b s (some (.wake i)) s') (hl : s.Locked)
    (hi : s.lock i = none) : ¬ s'.Committed i := by
  rintro (⟨hsl, -⟩ | ⟨k, hk⟩)
  · rw [h.table_eq] at hsl
    simp [Table.update, Update.slot, Update.body] at hsl
  · rcases h.sleepSet_of hk with hk | ⟨hw, -⟩
    · have := hl i i (by simp [hk, Pc.held])
      simp [hi] at this
    · cases hw

omit [NeZero n] in
/-- The `wakeup` in `exit` has passed a slot that is not committed. -/
theorem Point.Critical.wake_cons {chan : Option (Chan n)} {rest : List (Fin n)} {k : Point n}
    (hk : (Point.wake chan (i :: rest) k).Critical s q)
    (hi : chan = some (.proc i) → ¬ s.Committed i) :
    (Point.wake chan rest k).Critical s q := by
  cases hx : k.isExitLock with
  | true =>
    rw [critical_wake_exitLock hx] at hk ⊢
    refine ⟨hk.1, fun v hv hj => ?_⟩
    by_cases hvi : v = i
    · exact hvi ▸ hi (by rw [hk.1, hv, hvi]; rfl)
    · exact hk.2 v hv (by simp [hvi, hj])
  | false =>
    rw [critical_wake hx] at hk ⊢
    exact hk

omit [NeZero n] in
/-- At the end of `wakeup` the thread goes on with what it knows. -/
theorem Point.Critical.wake_nil {chan : Option (Chan n)} {k : Point n}
    (hk : (Point.wake chan [] k).Critical s q) : k.Critical s q := by
  cases hx : k.isExitLock with
  | true =>
    rw [critical_wake_exitLock hx] at hk
    cases k with
    | exitLock st => exact fun v hv => hk.2 v hv (by simp)
    | _ => simp [isExitLock] at hx
  | false => exact (critical_wake hx).mp hk

/-- **A thread keeps its knowledge under `wait_lock`** by its own moves. -/
theorem critical_of_thread (hk : (s.pc q).point.Critical s q) (h : Step b s w s')
    (hs : s.Inv) (hl : s.Locked) (hth : Thread s.table q (s.pc q) a w (s'.pc q))
    (ha : a.Enabled s) : (s'.pc q).point.Critical s' q := by
  have hsound := hs.sound q
  -- what is known before the move is known after it, if the move itself is harmless
  have hT : ∀ k : Point n, k.Critical s q → (k.HoldsWait → (s.pc q).point.HoldsWait) →
      (s.pc q).OnCpu → (∀ addr, s.pc q ≠ .waitRelease addr) →
      (∀ u ∈ w, u.Familial = false) → k.Critical s' q := by
    intro k hk hw hr hne hf
    by_cases hkw : k.HoldsWait
    · exact hk.step h hs (hsound.running hr) hf fun v hv =>
        h.committed_of hs (hs.holdsWait q (hw hkw)) (fun addr he => absurd he (hne addr)) hv
    · exact Point.critical_of_not_holdsWait (by simpa using hkw)
  generalize hc₀ : s.pc q = c₀ at hth hk hsound hT
  generalize hc₁ : s'.pc q = c₁ at hth
  cases hth with
  | yieldLock | unlockWait => exact Point.critical_of_not_holdsWait hsound.point.1
  | yieldSet | sleepSet | tidy => exact Point.critical_of_not_holdsWait (hsound.switching rfl)
  | unlock => exact hT _ hk id rfl nofun nofun
  | forkLink | waitReap | waitFault | waitNone | waitKilled | exitEnter | reparentSkip
  | exitLock => trivial
  | reparentTake => exact (Point.critical_wake rfl).mpr trivial
  | waitEnter => exact fun j hj => absurd (List.mem_finRange j) hj
  | @waitSkip addr i rest havekids hi =>
    refine hT (.waitScan addr rest havekids) (fun j hj hpar => ?_) id rfl nofun nofun
    have hji : j ≠ i := by
      rintro rfl
      exact hi hpar
    exact hk j (by simp [hji, hj]) hpar
  | @waitChild addr i rest havekids hi hz =>
    refine hT (.waitScan addr rest true) (fun j hj hpar => ?_) id rfl nofun nofun
    by_cases hji : j = i
    · rwa [hji]
    · exact hk j (by simp [hji, hj]) hpar
  | @waitAlive addr _ =>
    exact hT (.waitSleep addr) (fun j hpar => hk j (by simp) hpar) id rfl nofun nofun
  | waitSleep => exact hT _ hk id rfl nofun nofun
  | wakeSelf =>
    refine hT _ (hk.wake_cons fun _ => ?_) id rfl nofun nofun
    have hr := hsound.running rfl
    rintro (⟨hsl, -⟩ | ⟨k, hk⟩)
    · simp [hr] at hsl
    · simp [hc₀] at hk
  | wakeMiss hi hne =>
    refine hT _ (hk.wake_cons fun hch => ?_) id rfl nofun nofun
    exact not_committed_of_unlocked hl ha (hch ▸ hne)
  | wakeHit hi hst hch =>
    refine (hT _ hk id rfl nofun ?_).wake_cons fun _ => not_committed_of_wake h hl ha
    rintro u ⟨⟩
    rfl
  | wakeDone => exact hT _ hk.wake_nil id rfl nofun nofun
  | reparentDone =>
    refine (Point.critical_wake_exitLock rfl).mpr ⟨?_, fun v _ hv => ?_⟩
    · rw [h.table_eq]
      rfl
    · exact absurd (List.mem_finRange v) hv
  | _ => exact Point.critical_of_not_holdsWait rfl

/-- **What a thread that holds `wait_lock` knows of the exits** remains true in every step. -/
theorem critical_of_step (hk : (s.pc q).point.Critical s q) (h : Step b s w s') (hs : s.Inv)
    (hl : s.Locked) : (s'.pc q).point.Critical s' q := by
  rcases h.pc_cases q with he | ⟨a, hth, ha⟩ | hr | ⟨i, rest, -, he⟩ | ⟨-, he⟩
  · exact critical_of_pc_eq hk h hs he
  · exact critical_of_thread hk h hs hl hth ha
  · rw [hr.point_eq]
    exact Point.critical_of_not_holdsWait ((hs.sound q).switching hr.switching)
  · rw [he]
    exact Point.critical_of_not_holdsWait rfl
  · rw [he]
    exact Point.critical_of_not_holdsWait rfl

/-! ### Zombies of waiting parents -/

/-- Process `e` is waking `initproc` in `reparent` and has not come to its slot. -/
def State.Waking (s : State n) (e : Fin n) : Prop :=
  ∃ js rest st, (s.pc e).point = .wake (some (.proc 0)) js (.reparent rest st) ∧ 0 ∈ js

/-- **The invariant of `wait` and `exit`**: no zombie child beside a sleeping parent, but for one
that `reparent` has just handed to `initproc` and is about to report. -/
structure State.Awake (s : State n) : Prop where
  inv : s.Inv
  locked : s.Locked
  critical : ∀ p, (s.pc p).point.Critical s p
  zombie : ∀ v i, (s.table.proc i).parent = some v → (s.table.proc i).state = .zombie →
    s.Committed v → v = 0 ∧ ∃ e, s.Waking e

/-- Who becomes a zombie has woken its parent. -/
theorem Step.exit_inv {pid st : ℤ} (h : Step b s (some (.exit i pid st)) s') :
    s.pc i = .run (.exitLock st) := by
  obtain ⟨q, a, c, c', hc, -, hth, -⟩ := h.thread_of (by simp [Update.Mild])
  cases hth with
  | exitLock => exact hc

/-- Who hands a child to `initproc` is about to wake it. -/
theorem Step.reparent_inv (h : Step b s (some (.reparent i p)) s') : s'.Waking p := by
  obtain ⟨q, a, c, c', -, hc', hth, -⟩ := h.thread_of (by simp [Update.Mild])
  cases hth with
  | @reparentTake i rest st hi =>
    exact ⟨List.finRange n, rest, st, by rw [hc']; rfl, List.mem_finRange 0⟩

/-- A thread that is waking `initproc` goes on to do so, unless `initproc` is awake. -/
theorem Thread.waking {js rest : List (Fin n)} {st : ℤ} (h : Thread s.table p c a w c')
    (ha : a.Enabled s) (hc : c.Sound s.table p) (hl : s.Locked) (h0 : s.Committed 0)
    (hp : c.point = .wake (some (.proc 0)) js (.reparent rest st)) (hjs : 0 ∈ js) :
    (∃ js rest st, c'.point = .wake (some (.proc 0)) js (.reparent rest st) ∧ 0 ∈ js) ∨
      (w = some (.wake 0) ∧ s.lock 0 = none) := by
  have hsw := hc.switching
  have hpt := hc.point
  cases h with
  | callYield hk => simp_all [Pc.point, Point.Preemptible]
  | unlock => exact .inl ⟨_, _, _, hp, hjs⟩
  | @wakeSelf chan rest' k =>
    obtain ⟨rfl, rfl, rfl⟩ := Point.wake.inj hp
    have hp0 : p ≠ 0 := hpt.1
    exact .inl ⟨rest', rest, st, rfl, (List.mem_cons.mp hjs).resolve_left hp0.symm⟩
  | @wakeMiss chan i rest' k hi hne =>
    obtain ⟨rfl, rfl, rfl⟩ := Point.wake.inj hp
    rcases List.mem_cons.mp hjs with rfl | hjs
    · exact absurd h0 (not_committed_of_unlocked hl ha hne)
    · exact .inl ⟨rest', rest, st, rfl, hjs⟩
  | @wakeHit chan i rest' k hi hst hch =>
    obtain ⟨rfl, rfl, rfl⟩ := Point.wake.inj hp
    rcases List.mem_cons.mp hjs with rfl | hjs
    · exact .inr ⟨rfl, ha⟩
    · exact .inl ⟨rest', rest, st, rfl, hjs⟩
  | wakeDone =>
    obtain ⟨-, rfl, -⟩ := Point.wake.inj hp
    cases hjs
  | _ => simp_all [Pc.point, Pc.Switching, Point.HoldsWait]

/-- The `wakeup(initproc)` comes to the slot of `initproc`. -/
theorem State.Waking.of_step {e : Fin n} (he : s.Waking e) (h : Step b s w s') (hs : s.Inv)
    (hl : s.Locked) (h0 : s.Committed 0) (h0' : s'.Committed 0) : s'.Waking e := by
  obtain ⟨js, rest, st, hp, hjs⟩ := he
  have hw : (s.pc e).point.HoldsWait := by simp [hp, Point.HoldsWait]
  rcases h.pc_cases e with heq | ⟨a, hth, ha⟩ | hr | ⟨i, rest, hpc, -⟩ | ⟨hu, -⟩
  · exact ⟨js, rest, st, by rw [heq, hp], hjs⟩
  · rcases hth.waking ha (hs.sound e) hl h0 hp hjs with hwk | ⟨rfl, hl0⟩
    · exact hwk
    · exact absurd h0' (not_committed_of_wake h hl hl0)
  · simp [(hs.sound e).switching hr.switching] at hw
  · simp [hpc, Pc.point] at hp
  · rcases (hs.sound e).running_of_holdsWait hw with hrun | hx
    · simp [hu] at hrun
    · simp [hx, Pc.point] at hp

/-- All of it holds after the boot, when there are no exits. -/
theorem State.Awake.boot (b : Build) (r : ℕ) : (boot b r : State n).Awake where
  inv := State.Inv.boot b r
  locked := by
    intro p i hi
    by_cases hp : p = 0 <;> simp [Xv6.boot, Pc.held, hp] at hi
  critical := by
    intro p
    by_cases hp : p = 0 <;> simp [Xv6.boot, Pc.point, Point.Critical, hp]
  zombie := by
    intro v i hpar
    by_cases hi : i = 0 <;> simp [Xv6.boot, Proc.blank, hi] at hpar

/-- A zombie child of a process that goes to sleep in `wait` is one that `reparent` has
just handed to `initproc`. -/
theorem State.Awake.zombie_step (hs : s.Awake) (h : Step b s w s')
    (hpar : (s'.table.proc i).parent = some v) (hz : (s'.table.proc i).state = .zombie)
    (hv' : s'.Committed v) : v = 0 ∧ ∃ e, s'.Waking e := by
  have hg := h.guard hs.inv
  have ht := h.table_eq
  have hold : s.Committed v → (s.table.proc i).parent = some v →
      (s.table.proc i).state = .zombie → v = 0 ∧ ∃ e, s'.Waking e := by
    intro hv hpar hz
    obtain ⟨rfl, e, he⟩ := hs.zombie v i hpar hz hv
    exact ⟨rfl, e, he.of_step h hs.inv hs.locked hv hv'⟩
  rcases hv'.of_step h hs.inv with hv | ⟨rfl, ⟨addr, hpc⟩, -⟩
  · cases w with
    | none =>
      rw [ht] at hpar hz
      exact hold hv hpar hz
    | some u =>
      rw [ht] at hpar hz
      rcases parent_update hpar with hchild | rfl | ⟨rfl, p, rfl⟩
      · rcases zombie_update_inv (hg u rfl) hz with hz | ⟨pid, st, rfl⟩
        · exact hold hv hchild hz
        · -- the exiting child has woken its parent
          have hc := hs.critical i
          rw [h.exit_inv] at hc
          exact absurd hv (hc v hchild)
      · -- a child that `fork` is building is not a zombie
        have hu : (s.table.proc i).state = .used := (hg _ rfl).1
        rcases zombie_update_inv (hg _ rfl) hz with hz | ⟨pid, st, hx⟩
        · simp [hu] at hz
        · cases hx
      · exact ⟨rfl, p, h.reparent_inv⟩
  · -- the parent has looked at all its children under `wait_lock`
    have hc := hs.critical v
    rw [hpc] at hc
    rw [ht] at hpar hz
    exact absurd hz (hc i hpar)

/-- **Every step keeps it.** -/
theorem State.Awake.step (hs : s.Awake) (h : Step b s w s') : s'.Awake where
  inv := hs.inv.step h
  locked := hs.locked.step h
  critical p := critical_of_step (hs.critical p) h hs.inv hs.locked
  zombie _ _ hpar hz hv := hs.zombie_step h hpar hz hv

/-- It holds in every reachable state. -/
theorem Run.awake (h : Run b tr s) : s.Awake := by
  induction h with
  | boot r => exact State.Awake.boot b r
  | step _ h ih => exact ih.step h

/-- **No exit is missed by a waiting parent.** In no state of any run is `wait_lock` free
while a process sleeps in `wait` and has a zombie among its children. -/
theorem no_missed_exit (h : Run b tr s) (hw : s.waitLock = none) :
    ¬ ∃ p i, (s.table.proc p).state = .sleeping ∧ (s.table.proc p).chan = some (.proc p) ∧
      (s.table.proc i).parent = some p ∧ (s.table.proc i).state = .zombie := by
  rintro ⟨p, i, hsl, hch, hpar, hz⟩
  obtain ⟨-, e, js, rest, st, he, -⟩ := h.awake.zombie p i hpar hz (.inl ⟨hsl, hch⟩)
  have := h.inv.holdsWait e (by simp [he, Point.HoldsWait])
  simp [hw] at this

/-- `initproc` sleeps in `wait` while its child has not run. -/
theorem no_missed_exit_sleeping :
    ∃ (tr : List (Update 64)) (s : State 64), Run .ours tr s ∧
      (s.table.proc 0).state = .sleeping ∧ (s.table.proc 0).chan = some (.proc 0) ∧
      (s.table.proc 1).parent = some 0 ∧ (s.table.proc 1).state ≠ .zombie := by
  have h := Run.init_user (n := 64) .ours 0
  have h := h.fork_user (i := 1) 0 rfl (by simp)
  have h := h.wait_sleep (i := 1) rfl (by decide) rfl
  exact ⟨_, _, h, rfl, rfl, rfl, fun hz => no_missed_exit h rfl ⟨0, 1, rfl, rfl, rfl, hz⟩⟩

end OsLabs.Xv6
