import OsLabs.Xv6

/-!
# System Calls without Interruption

The moves that a thread makes when no other thread moves in between, from a state in which
all slots are unlocked, for as long as a call takes. The scans over the table come to what
a search of the table finds.
-/

namespace OsLabs.Xv6

variable {n : ℕ} [NeZero n] {b : Build} {T : Table n} {W : Option (Fin n)} {P : Fin n → Pc n}
  {p i : Fin n} {w : Option (Update n)} {tr : List (Update n)}

/-- A state in which the lock of every slot is free. -/
def State.unlocked (T : Table n) (W : Option (Fin n)) (P : Fin n → Pc n) : State n :=
  ⟨T, W, fun _ => none, P⟩

/-- A run goes on with a move of a thread that can get the lock it needs. -/
theorem Run.thread {s : State n} {a : LockAct n} {c c' : Pc n} (h : Run b tr s)
    (hp : s.pc p = c) (ht : Thread s.table p c a w c') (ha : a.Enabled s) :
    Run b (w.toList ++ tr) ⟨s.table.updates b w, a.waitLock p s.waitLock, a.lock p s.lock,
      Function.update s.pc p c'⟩ :=
  h.step (.thread (hp ▸ ht) ha)

/-- A move of a thread that neither takes nor releases the lock of a slot. -/
theorem Run.move {k k' : Point n} {a : LockAct n}
    (h : Run b tr (.unlocked T W (Function.update P p (.run k))))
    (ht : Thread T p (.run k) a w (.run k'))
    (ha : a.Enabled (.unlocked T W (Function.update P p (.run k))))
    (hl : ∀ L, a.lock p L = L) :
    Run b (w.toList ++ tr)
      (.unlocked (T.updates b w) (a.waitLock p W) (Function.update P p (.run k'))) := by
  have := h.thread (Function.update_self ..) ht ha
  simpa [State.unlocked, hl] using this

/-- Lock a slot, work on it and release it. -/
theorem Run.visit {k k' : Point n}
    (h : Run b tr (.unlocked T W (Function.update P p (.run k))))
    (ht : Thread T p (.run k) (.acquire i) w (.unlock i k')) :
    Run b (w.toList ++ tr) (.unlocked (T.updates b w) W (Function.update P p (.run k'))) := by
  have h := h.thread (Function.update_self ..) ht rfl
  have h := h.thread (Function.update_self ..) .unlock trivial
  simpa [State.unlocked, LockAct.lock, LockAct.waitLock] using h

/-- The turns of a loop over the table that change nothing. -/
theorem Run.scan {K : List (Fin n) → Point n} (pre rest : List (Fin n))
    (h : Run b tr (.unlocked T W (Function.update P p (.run (K (pre ++ rest))))))
    (hstep : ∀ j ∈ pre, ∀ rest,
      Run b tr (.unlocked T W (Function.update P p (.run (K (j :: rest))))) →
      Run b tr (.unlocked T W (Function.update P p (.run (K rest))))) :
    Run b tr (.unlocked T W (Function.update P p (.run (K rest)))) := by
  induction pre with
  | nil => exact h
  | cons j pre ih =>
    refine ih (hstep j (by simp) _ h) fun j' hj' => hstep j' (by simp [hj'])

/-! ### Dispatch and yield -/

/-- A scheduler dispatches a process that is about to return to user space. -/
theorem Run.dispatch_user (h : Run b tr (.unlocked T W P)) (hp : P p = .yielded .user)
    (hs : (T.proc p).state = .runnable) :
    Run b (.dispatch p :: tr)
      (.unlocked (T.update b (.dispatch p)) W (Function.update P p (.run .user))) := by
  have h := h.step (.dispatch (p := p) rfl hs (by simpa [State.unlocked, hp] using .yielded))
  have h := h.thread (Function.update_self ..) .unlock trivial
  simpa [State.unlocked, LockAct.lock, LockAct.waitLock] using h

/-- After the boot and its dispatch `initproc` comes to user space. -/
theorem Run.init_user (b : Build) (r : ℕ) :
    Run b [.dispatch 0] (.unlocked ((Xv6.boot b r : State n).table.update b (.dispatch 0)) none
      (Function.update (fun _ => .dead) 0 (.run .user))) := by
  have h : Run b [] (.unlocked (Xv6.boot b r : State n).table none (Xv6.boot b r : State n).pc) :=
    Run.boot r
  have h := h.dispatch_user (p := 0) (by simp [Xv6.boot]) (by simp [Xv6.boot])
  simpa [Xv6.boot] using h

/-- A process in user space gives up its CPU. -/
theorem Run.yield_user (h : Run b tr (.unlocked T W (Function.update P p (.run .user)))) :
    Run b (.yield p :: tr)
      (.unlocked (T.update b (.yield p)) W (Function.update P p (.yielded .user))) := by
  have h := h.move (.callYield rfl) trivial fun _ => rfl
  have h := h.thread (Function.update_self ..) .yieldLock rfl
  have h := h.thread (Function.update_self ..) .yieldSet trivial
  have h := h.step (.drop (i := p) (by simp [LockAct.lock]))
  simpa [State.unlocked, LockAct.lock, LockAct.waitLock] using h

/-! ### The calls -/

/-- `kill(pid)`, where slot `i` is the first with this pid. -/
theorem Run.kill_user (pid : ℤ)
    (h : Run b tr (.unlocked T W (Function.update P p (.run .user))))
    (hi : (List.finRange n).find? (fun j => (T.proc j).pid = pid) = some i) :
    Run b (.kill i pid :: tr)
      (.unlocked (T.update b (.kill i pid)) W (Function.update P p (.run .user))) := by
  obtain ⟨hpid, pre, rest, hjs, hpre⟩ := List.find?_eq_some_iff_append.mp hi
  have hcall : Thread T p (.run .user) .idle none (.run (.killScan pid (List.finRange n))) :=
    .callKill
  have h := h.move hcall trivial fun _ => rfl
  rw [hjs] at h
  have h := h.scan (K := .killScan pid) pre (i :: rest) fun j hj _ h =>
    h.visit (.killMiss (by simpa using hpre j hj))
  exact h.visit (.killHit (by simpa using hpid))

/-- The scan of `allocproc` comes to the first free slot. -/
theorem Run.fork_scan (h : Run b tr (.unlocked T W (Function.update P p (.run .user))))
    (hi : (List.finRange n).find? (fun j => (T.proc j).state = .unused) = some i) :
    ∃ rest, Run b tr
      (.unlocked T W (Function.update P p (.run (.allocScan (i :: rest))))) := by
  obtain ⟨-, pre, rest, hjs, hpre⟩ := List.find?_eq_some_iff_append.mp hi
  have h := h.move .callFork trivial fun _ => rfl
  rw [hjs] at h
  exact ⟨rest, h.scan (K := .allocScan) pre (i :: rest) fun j hj _ h =>
    h.visit (.allocTaken (by simpa using hpre j hj))⟩

/-- A `fork` that succeeds, where slot `i` is the first that is free. -/
theorem Run.fork_user (r : ℕ)
    (h : Run b tr (.unlocked T none (Function.update P p (.run .user))))
    (hi : (List.finRange n).find? (fun j => (T.proc j).state = .unused) = some i)
    (hpi : i ≠ p) :
    Run b (.start i :: .link i p :: .alloc i T.nextpid r :: tr)
      (.unlocked (((T.update b (.alloc i T.nextpid r)).update b (.link i p)).update b (.start i))
        none (Function.update (Function.update P i (.yielded .user)) p (.run .user))) := by
  have hfree := List.find?_some hi
  obtain ⟨rest, h⟩ := h.fork_scan hi
  have hpc : (State.unlocked T none
      (Function.update P p (.run (.allocScan (i :: rest))))).pc p =
        .run (.allocScan (i :: rest)) := by
    simp [State.unlocked]
  have h := h.step (.alloc r hpc rfl (by simpa [State.unlocked] using hfree))
  have h := h.thread (Function.update_self ..) .forkCopied trivial
  have hP : ∀ c c' : Pc n,
      Function.update (Function.update (Function.update P p c) i (.yielded .user)) p c' =
        Function.update (Function.update P i (.yielded .user)) p c' := by
    intro c c'
    rw [Function.update_comm hpi.symm, Function.update_idem]
  have h : Run b (.alloc i T.nextpid r :: tr) (.unlocked (T.update b (.alloc i T.nextpid r)) none
      (Function.update (Function.update P i (.yielded .user)) p (.run (.forkLink i)))) := by
    simpa [State.unlocked, LockAct.lock, LockAct.waitLock, hP] using h
  have h := h.move .forkLink rfl fun _ => rfl
  have h := h.move .unlockWait trivial fun _ => rfl
  exact h.visit .forkRun

/-- An `exit` of a process that has no children, while nobody sleeps. -/
theorem Run.exit_user (st : ℤ)
    (h : Run b tr (.unlocked T none (Function.update P p (.run .user)))) (hp : p ≠ 0)
    (hc : ∀ j, (T.proc j).parent ≠ some p) (hs : ∀ j, (T.proc j).state ≠ .sleeping) :
    Run b (.exit p (T.proc p).pid st :: tr)
      (.unlocked (T.update b (.exit p (T.proc p).pid st)) none (Function.update P p .dead)) := by
  have hcall : Thread T p (.run .user) .idle none (.run (.exitEnter st)) := .callExit hp
  have h := h.move hcall trivial fun _ => rfl
  have h := h.move .exitEnter rfl fun _ => rfl
  rw [← List.append_nil (List.finRange n)] at h
  have h := h.scan (K := (.reparent · st)) (List.finRange n) [] fun j _ _ h =>
    h.move (.reparentSkip (hc j)) trivial fun _ => rfl
  have h := h.move .reparentDone trivial fun _ => rfl
  rw [← List.append_nil (List.finRange n)] at h
  have h := h.scan (K := (.wake ((T.proc p).parent.map .proc) · (.exitLock st)))
    (List.finRange n) [] fun j _ rest h => by
      by_cases hj : j = p
      · subst hj
        exact h.move .wakeSelf trivial fun _ => rfl
      · exact h.visit (.wakeMiss hj fun hj => hs j hj.1)
  have h := h.move .wakeDone trivial fun _ => rfl
  have h := h.thread (Function.update_self ..) .exitLock rfl
  have h := h.thread (Function.update_self ..) .exitRelease trivial
  have h := h.thread (Function.update_self ..) .exitSched trivial
  have h := h.step (.drop (i := p) (by simp [LockAct.lock]))
  simpa [State.unlocked, LockAct.lock, LockAct.waitLock] using h

/-- The scan of `wait` comes to the first child. -/
theorem Run.wait_scan (h : Run b tr (.unlocked T none (Function.update P p (.run .user))))
    (hi : (List.finRange n).find? (fun j => (T.proc j).parent = some p) = some i) :
    ∃ rest, Run b tr
      (.unlocked T (some p) (Function.update P p (.run (.waitScan 0 (i :: rest) false)))) := by
  obtain ⟨-, pre, rest, hjs, hpre⟩ := List.find?_eq_some_iff_append.mp hi
  have hcall : Thread T p (.run .user) .idle none (.run (.waitEnter 0)) := .callWait
  have h := h.move hcall trivial fun _ => rfl
  have h := h.move .waitEnter rfl fun _ => rfl
  rw [hjs] at h
  exact ⟨rest, h.scan (K := (.waitScan 0 · false)) pre (i :: rest) fun j hj _ h =>
    h.move (.waitSkip (by simpa using hpre j hj)) trivial fun _ => rfl⟩

/-- A `wait` of a process that has children, none of them a zombie, and is not killed: it
goes to sleep. -/
theorem Run.wait_sleep
    (h : Run b tr (.unlocked T none (Function.update P p (.run .user))))
    (hi : (List.finRange n).find? (fun j => (T.proc j).parent = some p) = some i)
    (hz : ∀ j, (T.proc j).state ≠ .zombie) (hk : (T.proc p).killed = 0) :
    Run b (.sleep p (.proc p) :: tr)
      (.unlocked (T.update b (.sleep p (.proc p))) none
        (Function.update P p (.slept (.waitEnter 0)))) := by
  obtain ⟨rest, h⟩ := h.wait_scan hi
  have h := h.visit (.waitChild (by simpa using List.find?_some hi) (hz i))
  rw [← List.append_nil rest] at h
  have h := h.scan (K := (.waitScan 0 · true)) rest [] fun j _ _ h => by
    by_cases hj : (T.proc j).parent = some p
    · exact h.visit (.waitChild hj (hz j))
    · exact h.move (.waitSkip hj) trivial fun _ => rfl
  have h := h.visit (.waitAlive hk)
  have h := h.thread (Function.update_self ..) .waitSleep rfl
  have h := h.thread (Function.update_self ..) .waitRelease trivial
  have h := h.thread (Function.update_self ..) .sleepSet trivial
  have h := h.step (.drop (i := p) (by simp [LockAct.lock]))
  simpa [State.unlocked, LockAct.lock, LockAct.waitLock] using h

/-- A `wait` whose first child is a zombie. -/
theorem Run.wait_user
    (h : Run b tr (.unlocked T none (Function.update P p (.run .user))))
    (hi : (List.finRange n).find? (fun j => (T.proc j).parent = some p) = some i)
    (hz : (T.proc i).state = .zombie) :
    Run b (.reap i p (T.proc i).pid (T.proc i).xstate :: tr)
      (.unlocked (T.update b (.reap i p (T.proc i).pid (T.proc i).xstate)) none
        (Function.update P p (.run .user))) := by
  obtain ⟨rest, h⟩ := h.wait_scan hi
  have h := h.visit (.waitReap (by simpa using List.find?_some hi) hz)
  exact h.move .unlockWait trivial fun _ => rfl

end OsLabs.Xv6
