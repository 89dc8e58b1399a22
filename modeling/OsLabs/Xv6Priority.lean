import OsLabs.Xv6Calls
import OsLabs.Xv6Refinement

/-!
# Priorities of Processes

`sys_setPriority` of `sysproc.c` as a function of the table, and what follows for the
priorities of all processes in all runs.

* `priority_authority`: the call succeeds exactly for a child of the caller and a priority
  between 0 and 20. Its scan stops at the first slot with the pid, so this needs that pids
  are unique and that no free or half-built slot can match.
* `new_priority_iff`: a new process starts at priority 0 in the build of `proc_our.c`. In
  that of `proc.c` neither `allocproc` nor `freeproc` touches the priority, and it starts
  at the one last set in its slot.
-/

namespace OsLabs.Xv6

open Lottery (ProcState)

variable {n : ℕ}

/-- The loop of `sys_setPriority`, with the value it returns. -/
def setPriorityScan (t : Table n) (current : Fin n) (pid priority : ℤ) :
    List (Fin n) → ℤ × Table n
  | [] => (-1, t)
  | p :: rest =>
    if (t.proc p).pid = pid then
      if (t.proc p).parent ≠ some current then (-1, t)
      else (0, { t with proc := Function.update t.proc p { t.proc p with priority } })
    else setPriorityScan t current pid priority rest

/-- `sys_setPriority` called by the process `current`. -/
def sysSetPriority (t : Table n) (current : Fin n) (pid priority : ℤ) : ℤ × Table n :=
  if priority < 0 ∨ priority > 20 then (-1, t)
  else if pid = (t.proc current).pid then (-1, t)
  else setPriorityScan t current pid priority (List.finRange n)

variable {t : Table n} {current i p : Fin n} {pid v : ℤ}

/-- The scan fails or finds a child of the caller. -/
theorem setPriorityScan_cases (t : Table n) (current : Fin n) (pid v : ℤ)
    (js : List (Fin n)) :
    (setPriorityScan t current pid v js = (-1, t) ∧
      ∀ i, js.find? (fun j => (t.proc j).pid = pid) = some i →
        (t.proc i).parent ≠ some current) ∨
    ∃ i, js.find? (fun j => (t.proc j).pid = pid) = some i ∧
      (t.proc i).parent = some current ∧
      setPriorityScan t current pid v js =
        (0, { t with proc := Function.update t.proc i { t.proc i with priority := v } }) := by
  induction js with
  | nil => exact .inl ⟨rfl, nofun⟩
  | cons j js ih =>
    by_cases hj : (t.proc j).pid = pid
    · by_cases hp : (t.proc j).parent = some current
      · exact .inr ⟨j, by simp [hj], hp, by simp [setPriorityScan, hj, hp]⟩
      · refine .inl ⟨by simp [setPriorityScan, hj, hp], ?_⟩
        simpa [hj] using hp
    · simpa [setPriorityScan, hj] using ih

variable [NeZero n] {b : Build} {u : Update n} {w : Option (Update n)}
  {tr : List (Update n)} {s s' : State n} {T : Table n} {W : Option (Fin n)} {P : Fin n → Pc n}

/-- The scan of `setPriority` from any slot on, without other threads in between. -/
theorem Run.prio_scan {js : List (Fin n)}
    (h : Run b tr (.unlocked T W (Function.update P p (.run (.prioScan pid v js))))) :
    ∃ w : Option (Update n), T.updates b w = (setPriorityScan T p pid v js).2 ∧
      (w.isSome ↔ (setPriorityScan T p pid v js).1 = 0) ∧
      Run b (w.toList ++ tr)
        (.unlocked (T.updates b w) W (Function.update P p (.run .user))) := by
  induction js with
  | nil => exact ⟨none, rfl, by simp [setPriorityScan], h.move .prioNone trivial fun _ => rfl⟩
  | cons j js ih =>
    by_cases hj : (T.proc j).pid = pid
    · by_cases hp : (T.proc j).parent = some p
      · refine ⟨some (.setPriority j p v), ?_, ?_, h.visit (.prioSet hj hp)⟩ <;>
          simp [setPriorityScan, hj, hp, Table.update, Update.slot, Update.body, Update.nextpid]
      · exact ⟨none, by simp [setPriorityScan, hj, hp], by simp [setPriorityScan, hj, hp],
          h.visit (.prioRefuse hj hp)⟩
    · simpa [setPriorityScan, hj] using ih (h.visit (.prioMiss hj))

/-- The thread's moves in `sys_setPriority`, when no other thread moves, come to what the
function says. -/
theorem Run.setPriority_user (pid v : ℤ)
    (h : Run b tr (.unlocked T W (Function.update P p (.run .user)))) :
    ∃ w : Option (Update n), T.updates b w = (sysSetPriority T p pid v).2 ∧
      (w.isSome ↔ (sysSetPriority T p pid v).1 = 0) ∧
      Run b (w.toList ++ tr)
        (.unlocked (T.updates b w) W (Function.update P p (.run .user))) := by
  by_cases hv : v < 0 ∨ v > 20
  · exact ⟨none, by simp [sysSetPriority, hv], by simp [sysSetPriority, hv], h⟩
  by_cases hp : pid = (T.proc p).pid
  · exact ⟨none, by simp [sysSetPriority, hv, hp], by simp [sysSetPriority, hv, hp], h⟩
  obtain ⟨h0, h20⟩ : 0 ≤ v ∧ v ≤ 20 := by omega
  have hcall : sysSetPriority T p pid v = setPriorityScan T p pid v (List.finRange n) := by
    simp [sysSetPriority, hv, hp]
  rw [hcall]
  exact (h.move (.callSetPriority h0 h20 hp) trivial fun _ => rfl).prio_scan

/-! ### Who may set a priority -/

/-- The first slot with the pid of a process is that of the process. -/
theorem Table.Numbered.find_pid {k : ℕ} (hn : t.Numbered k) (hv : t.Valid)
    (hi : (t.proc i).state ≠ .unused) (hpid : (t.proc i).pid = pid) :
    (List.finRange n).find? (fun j => (t.proc j).pid = pid) = some i := by
  cases hf : (List.finRange n).find? fun j => (t.proc j).pid = pid with
  | none => simpa [hpid] using List.find?_eq_none.mp hf i (List.mem_finRange i)
  | some j =>
    have hj : (t.proc j).pid = pid := by simpa using List.find?_some hf
    have hju : (t.proc j).state ≠ .unused := by
      intro hu
      have h0 := (hv.free j hu).1
      have h1 := (hn.bounds i hi).1
      omega
    rw [hn.injective j i hju hi (hj.trans hpid.symm)]

/-- Only `sys_setPriority` by the parent changes the priority of a process. -/
theorem priority_changes (hu : u.Guard t) (hi : (t.proc i).state ≠ .unused)
    (hi' : ((t.update b u).proc i).state ≠ .unused)
    (hne : ((t.update b u).proc i).priority ≠ (t.proc i).priority) :
    ∃ p v, u = .setPriority i p v ∧ (t.proc i).parent = some p ∧
      ((t.update b u).proc i).priority = v := by
  rcases priority_update b t u i with he | ⟨p, v, rfl, he⟩ | ⟨-, ⟨pid, r, rfl, -⟩ | ⟨hf, -⟩⟩
  · exact absurd he hne
  · exact ⟨p, v, rfl, hu.1, he⟩
  · exact absurd hu.1 hi
  · exact absurd hf hi'

/-- A priority is set by a thread in `setPriority`, at a slot with the pid that it looks for. -/
theorem Step.setPriority_inv (h : Step b s (some (.setPriority i p v)) s') :
    ∃ rest, s.pc p = .run (.prioScan (s.table.proc i).pid v (i :: rest)) := by
  obtain ⟨q, a, c, c', hc, -, hth, -⟩ := h.thread_of (by simp [Update.Mild])
  cases hth with
  | @prioSet pid v i rest hpid hpar => exact ⟨rest, hpid ▸ hc⟩

/-- Slot `i` holds a process with this pid that is a child of `current`. -/
def Table.HasChild (t : Table n) (current : Fin n) (pid : ℤ) (i : Fin n) : Prop :=
  (t.proc i).state ≠ .unused ∧ (t.proc i).pid = pid ∧ (t.proc i).parent = some current

/-- What `sys_setPriority` does to a table with unique pids. -/
theorem sysSetPriority_cases {k : ℕ} (hn : t.Numbered k) (hv : t.Valid) (current : Fin n)
    (pid v : ℤ) :
    ((0 ≤ v ∧ v ≤ 20 ∧ pid ≠ (t.proc current).pid) ∧ ∃ i, t.HasChild current pid i ∧
      sysSetPriority t current pid v =
        (0, { t with proc := Function.update t.proc i { t.proc i with priority := v } })) ∨
    (¬ (0 ≤ v ∧ v ≤ 20 ∧ pid ≠ (t.proc current).pid ∧ ∃ i, t.HasChild current pid i) ∧
      sysSetPriority t current pid v = (-1, t)) := by
  by_cases hrange : v < 0 ∨ v > 20
  · exact .inr ⟨by omega, by simp [sysSetPriority, hrange]⟩
  by_cases hself : pid = (t.proc current).pid
  · exact .inr ⟨fun h => h.2.2.1 hself, by simp [sysSetPriority, hrange, hself]⟩
  have hcall : sysSetPriority t current pid v =
      setPriorityScan t current pid v (List.finRange n) := by
    simp [sysSetPriority, hrange, hself]
  rw [hcall]
  obtain ⟨he, hnone⟩ | ⟨i, hi, hpar, he⟩ :=
    setPriorityScan_cases t current pid v (List.finRange n)
  · refine .inr ⟨?_, he⟩
    rintro ⟨-, -, -, i, hi, hpid, hpar⟩
    exact hnone i (hn.find_pid hv hi hpid) hpar
  · refine .inl ⟨by omega, i, ⟨?_, by simpa using List.find?_some hi, hpar⟩, he⟩
    -- a free slot has no parent
    intro hu
    simp [(hv.free i hu).2] at hpar

/-- **Only the parent sets a priority.** In every table that a run can reach, as long as
fewer than `2^31 - 1` pids have been allocated, `sys_setPriority` returns 0 exactly if the
priority is between 0 and 20, the pid is not that of the caller and there is a child of the
caller with this pid; it then changes the priority of that child and nothing else, and it
returns -1 and changes nothing otherwise. A process that makes the call while no other thread
moves gets the run to the table that the function says, with one update if it returns 0 and
none else. So all priorities lie between 0 and 20, and the priority of a process changes
during its life only in a call of its parent at that time. -/
theorem priority_authority (h : Run b tr s) :
    (allocs tr + 1 < 2 ^ 31 - 1 → ∀ current pid v,
      ((sysSetPriority s.table current pid v).1 = 0 ↔
        0 ≤ v ∧ v ≤ 20 ∧ pid ≠ (s.table.proc current).pid ∧
          ∃ i, s.table.HasChild current pid i) ∧
      (sysSetPriority s.table current pid v = (-1, s.table) ∨
        ∃ i, s.table.HasChild current pid i ∧ sysSetPriority s.table current pid v =
          (0, { s.table with
            proc := Function.update s.table.proc i { s.table.proc i with priority := v } }))) ∧
    (∀ T W P p pid v, s = .unlocked T W (Function.update P p (.run .user)) →
      ∃ w : Option (Update n), T.updates b w = (sysSetPriority T p pid v).2 ∧
        (w.isSome ↔ (sysSetPriority T p pid v).1 = 0) ∧
        Run b (w.toList ++ tr)
          (.unlocked (T.updates b w) W (Function.update P p (.run .user)))) ∧
    (∀ i, 0 ≤ (s.table.proc i).priority ∧ (s.table.proc i).priority ≤ 20) ∧
    (∀ w s', Step b s w s' → ∀ i, (s.table.proc i).state ≠ .unused →
      (s'.table.proc i).state ≠ .unused →
      (s'.table.proc i).priority ≠ (s.table.proc i).priority →
      ∃ p v rest, w = some (.setPriority i p v) ∧ (s'.table.proc i).priority = v ∧
        (s.table.proc i).parent = some p ∧
        s.pc p = .run (.prioScan (s.table.proc i).pid v (i :: rest))) := by
  refine ⟨fun hk current pid v => ?_, ?_, h.history.priority_mem, ?_⟩
  · obtain ⟨⟨h0, h20, hself⟩, i, hi, he⟩ | ⟨hno, he⟩ :=
      sysSetPriority_cases (h.history.numbered hk) h.inv.valid current pid v
    · refine ⟨?_, .inr ⟨i, hi, he⟩⟩
      simp only [he, true_iff]
      exact ⟨h0, h20, hself, i, hi⟩
    · refine ⟨?_, .inl he⟩
      simpa [he] using hno
  · rintro T W P p pid v rfl
    exact h.setPriority_user pid v
  · intro w s' hstep i hi hi' hne
    have hg := hstep.guard h.inv
    rw [hstep.table_eq] at hi' hne ⊢
    cases w with
    | none => exact absurd rfl hne
    | some u =>
      obtain ⟨p, v, rfl, hpar, he⟩ := priority_changes (hg u rfl) hi hi' hne
      obtain ⟨rest, hpc⟩ := hstep.setPriority_inv
      exact ⟨p, v, rest, rfl, he, hpar, hpc⟩

/-- `initproc` may set the priority of its child, and does so. -/
theorem priority_authority_child :
    ∃ (tr : List (Update 64)) (s s' : State 64), Run .ours tr s ∧
      (sysSetPriority s.table 0 2 7).1 = 0 ∧ (∃ tr', Run .ours tr' s') ∧
      s'.table = (sysSetPriority s.table 0 2 7).2 ∧ (s'.table.proc 1).priority = 7 := by
  have h := Run.init_user (n := 64) .ours 0
  have h := h.fork_user (i := 1) 0 rfl (by simp)
  obtain ⟨hcall, hmoves, -⟩ := priority_authority h
  have hchild := ((hcall (by decide) 0 2 7).1).mpr
    ⟨by decide, by decide, by decide, 1, by decide, rfl, rfl⟩
  obtain ⟨w, htable, -, hrun⟩ := hmoves _ _ _ 0 2 7 rfl
  exact ⟨_, _, _, h, hchild, ⟨_, hrun⟩, htable, htable ▸ rfl⟩

/-! ### New processes -/

/-- **A new process starts at priority 0** in every run of `proc_our.c`, and in a run of
`proc.c` exactly if the priority last set in its slot, by whichever process, is 0 or none
was set. -/
theorem new_priority_iff {r : ℕ} (h : Run b tr s)
    (hstep : Step b s (some (.alloc i pid r)) s') (hpid : pid ≠ 1) :
    (s'.table.proc i).priority = 0 ↔ b = .ours ∨ lastPriority i tr = 0 := by
  rw [hstep.table_eq]
  cases b with
  | standard =>
    simp [Table.update, Update.slot, Update.body, allocproc, h.history.priority_eq i]
  | ours => simp [Table.update, Update.slot, Update.body, allocproc, hpid]

/-- The first child of the first process, in a slot that has never been used. -/
theorem new_priority_first_fork :
    ∃ (tr : List (Update 64)) (s s' : State 64), Run .standard tr s ∧
      Step .standard s (some (.alloc 1 2 0)) s' ∧ (s'.table.proc 1).priority = 0 := by
  have h := Run.init_user (n := 64) .standard 0
  obtain ⟨rest, h⟩ := h.fork_scan (i := 1) rfl
  have hpid : (2 : ℤ) ≠ 1 := by norm_num
  refine ⟨_, _, _, h, .alloc (p := 0) 0 rfl rfl rfl, ?_⟩
  exact (new_priority_iff h (.alloc (p := 0) 0 rfl rfl rfl) hpid).mpr (.inr rfl)

/-- In `proc.c` a child of `initproc` gets priority 7, exits and is reaped. The next
process in its slot starts at priority 7. -/
theorem stale_priority :
    ∃ (tr : List (Update 64)) (s s' : State 64), Run .standard tr s ∧
      Step .standard s (some (.alloc 1 3 0)) s' ∧ (s'.table.proc 1).priority = 7 := by
  have h := Run.init_user (n := 64) .standard 0
  have h := h.fork_user (i := 1) 0 rfl (by simp)
  obtain ⟨w, hw, -, h⟩ := h.setPriority_user 2 7
  rw [hw] at h
  have h := h.yield_user.dispatch_user (p := 1) rfl rfl
  have h := h.exit_user 0 (by simp) (by decide) (by decide)
  have h := h.dispatch_user (p := 0) rfl rfl
  have h := h.wait_user (i := 1) rfl rfl
  obtain ⟨rest, h⟩ := h.fork_scan (i := 1) rfl
  exact ⟨_, _, _, h, .alloc (p := 0) 0 rfl rfl rfl, rfl⟩

end OsLabs.Xv6
