import OsLabs.Xv6Calls
import OsLabs.Xv6Refinement

/-!
# Process Lifetimes

What the table's histories say of the processes, for every run of the kernel in every
interleaving.

* `parents_outlive_children`: from its start to its end every process but `initproc` has a
  parent, which has not exited; every exit is returned by one `wait`, of the parent at that
  time, and until then the slot stays a zombie.
* `free_slots_clean`: a free slot of `proc_our.c` holds nothing of its earlier processes,
  as long as no `kill(0)` comes upon it. `kill` compares pids without looking at the state,
  and the pid of a free slot is 0.
-/

namespace OsLabs.Xv6

open Lottery (ProcState)

variable {n : ℕ} [NeZero n] {b : Build} {t : Table n} {u : Update n} {w : Option (Update n)}
  {tr : List (Update n)} {s s' : State n} {i p : Fin n}

/-! ### Exit and wait -/

/-- A zombie stays a zombie until it is reaped. -/
theorem zombie_update (hu : u.Guard t) (hi : (t.proc i).state = .zombie)
    (h : ((t.update b u).proc i).state ≠ .zombie) : ∃ p pid st, u = .reap i p pid st := by
  rcases update_proc_cases b t u i with ⟨rfl, he⟩ | ⟨-, he⟩
  · rw [he] at h
    cases u with
    | reap j p pid st => exact ⟨p, pid, st, rfl⟩
    | _ => simp_all [Update.Guard, Update.body, Update.slot]
  · exact absurd hi (he ▸ h)

/-- Only `wait` reaps, and only a child of the process that waits. -/
theorem Step.reap_inv {pid st : ℤ} (h : Step b s (some (.reap i p pid st)) s') :
    ∃ addr rest havekids, s.pc p = .run (.waitScan addr (i :: rest) havekids) ∧
      s'.pc p = .unlock i (.unlockWait .user) := by
  obtain ⟨q, a, c, c', hc, hc', hth, -⟩ := h.thread_of (by simp [Update.Mild])
  cases hth with
  | @waitReap addr i rest havekids hp hz => exact ⟨addr, rest, havekids, hc, hc'⟩

/-- **Parents outlive their children, and each exit is reaped once.** In every state of
every run, a process other than `initproc` that has been started and not reaped has a
parent that is runnable, running or sleeping. The exits from a slot are those that `wait`
has returned, in this order, and at most one more, that of the zombie in it. A zombie's
slot changes its state only in a `wait` of its parent, which returns its pid and its
status and frees the slot. -/
theorem parents_outlive_children (h : Run b tr s) :
    (∀ i, i ≠ 0 → Started (s.table.proc i).state →
      ∃ q, (s.table.proc i).parent = some q ∧ Live (s.table.proc q).state) ∧
    (∀ i, tr.filterMap (Update.exited i) =
      (s.table.proc i).unreaped ++ tr.filterMap (Update.reaped i)) ∧
    (∀ w s', Step b s w s' → ∀ i, (s.table.proc i).state = .zombie →
      (s'.table.proc i).state ≠ .zombie →
      ∃ q, w = some (.reap i q (s.table.proc i).pid (s.table.proc i).xstate) ∧
        (s.table.proc i).parent = some q ∧ (s'.table.proc i).state = .unused ∧
        ∃ addr rest havekids, s.pc q = .run (.waitScan addr (i :: rest) havekids) ∧
          s'.pc q = .unlock i (.unlockWait .user)) := by
  have hv := h.inv.valid
  refine ⟨fun i hi hs => ?_, h.history.exits_eq, fun w s' hstep i hz hnz => ?_⟩
  · obtain ⟨q, hq⟩ := Option.ne_none_iff_exists'.mp (hv.orphan i hi hs)
    exact ⟨q, hq, hv.parent i q hq⟩
  · have ht := hstep.table_eq
    cases w with
    | none =>
      rw [ht] at hnz
      exact absurd hz hnz
    | some u =>
      have hg := hstep.guard h.inv u rfl
      rw [ht] at hnz
      obtain ⟨q, pid, st, rfl⟩ := zombie_update hg hz hnz
      obtain ⟨-, hp, rfl, rfl⟩ := hg
      refine ⟨q, rfl, hp, ?_, hstep.reap_inv⟩
      rw [ht]
      simp [Table.updates, Table.update, Update.slot, Update.body]

/-- A child of `initproc` has exited with status 5 and waits to be reaped. -/
theorem parents_outlive_children_zombie :
    ∃ (tr : List (Update 64)) (s : State 64), Run .ours tr s ∧
      (s.table.proc 1).state = .zombie ∧
      (∃ q, (s.table.proc 1).parent = some q ∧ Live (s.table.proc q).state) ∧
      tr.filterMap (Update.exited 1) = [(2, 5)] ++ tr.filterMap (Update.reaped 1) := by
  have h := Run.init_user (n := 64) .ours 0
  have h := h.fork_user (i := 1) 0 rfl (by simp)
  have h := h.yield_user.dispatch_user (p := 1) rfl rfl
  have h := h.exit_user 5 (by simp) (by decide) (by decide)
  obtain ⟨hpar, hexits, -⟩ := parents_outlive_children h
  exact ⟨_, _, h, rfl, hpar 1 (by decide) rfl, hexits 1⟩

/-! ### Free slots -/

/-- Every free slot is as in the zeroed array. -/
def Table.Clean (t : Table n) : Prop :=
  ∀ i, (t.proc i).state = .unused → t.proc i = Proc.blank

/-- A `kill(0)` has not come upon a free slot. -/
def Update.KillsProcess (t : Table n) : Update n → Prop
  | kill i pid => pid = 0 → (t.proc i).state ≠ .unused
  | _ => True

/-- A run in which all updates satisfy `Q` where they are made. -/
inductive RunWhere (b : Build) (Q : Table n → Update n → Prop) :
    List (Update n) → State n → Prop
  | boot (r : ℕ) : RunWhere b Q [] (boot b r)
  | step {tr : List (Update n)} {s s' : State n} {w : Option (Update n)} :
      RunWhere b Q tr s → Step b s w s' → (∀ u ∈ w, Q s.table u) →
      RunWhere b Q (w.toList ++ tr) s'

/-- A run with a condition on its steps is a run. -/
theorem RunWhere.run {Q : Table n → Update n → Prop} (h : RunWhere b Q tr s) : Run b tr s := by
  induction h with
  | boot r => exact .boot r
  | step _ h _ ih => exact ih.step h

/-- A run in which nobody calls `kill(0)` is one in which no `kill(0)` comes upon a free
slot. -/
theorem Run.killsProcess (h : Run b tr s) (hk : ∀ i, .kill i 0 ∉ tr) :
    RunWhere b Update.KillsProcess tr s := by
  induction h with
  | boot r => exact .boot r
  | @step tr s s' w hrun hstep ih =>
    refine (ih fun i hi => hk i (List.mem_append_right _ hi)).step hstep fun u hu => ?_
    cases u with
    | kill i pid =>
      rintro rfl
      exact absurd (List.mem_append_left _ (Option.mem_toList.2 hu)) (hk i)
    | _ => trivial

omit [NeZero n] in
/-- `freeproc` of `proc_our.c` leaves a blank slot. -/
theorem freeproc_ours (x : Proc n) : freeproc .ours x = Proc.blank := rfl

/-- Updates keep free slots clean, but for a `kill(0)`. -/
theorem Table.Clean.update (hc : t.Clean) (hv : t.Valid) (hu : u.Guard t)
    (hk : u.KillsProcess t) : (t.update .ours u).Clean := by
  intro i hi
  rcases unused_update hv hu hi with ⟨x, he⟩ | ⟨hf, he | ⟨pid, rfl, -⟩⟩
  · rw [he, freeproc_ours]
  · rw [he]
    exact hc i hf
  · -- a free slot has pid 0
    have hpid : (t.proc i).pid = pid := hu
    exact absurd hf (hk (hpid.symm.trans (hv.free i hf).1))

/-- **Free slots stay clean** as long as `kill` is asked for processes only. -/
theorem RunWhere.clean (h : RunWhere .ours Update.KillsProcess tr s) : s.table.Clean := by
  induction h with
  | boot r =>
    intro i hi
    by_cases h0 : i = 0
    · simp [Xv6.boot, h0] at hi
    · simp [Xv6.boot, h0]
  | @step tr s s' w hr h hk ih =>
    have hg := h.guard hr.run.inv
    rw [h.table_eq]
    cases w with
    | none => exact ih
    | some u => exact ih.update hr.run.inv.valid (hg u rfl) (hk u rfl)

/-- **Free slots stay clean exactly as long as no `kill(0)` comes upon one.** In every
state of a run of `proc_our.c` without such a `kill`, every free slot is as in the zeroed
array. A further move leaves it so, gives a new process that has not been killed, and
returns 0 from `kill` only for the pid of a process, if and only if it is not such a
`kill`. -/
theorem free_slots_clean (h : RunWhere .ours Update.KillsProcess tr s) :
    s.table.Clean ∧ ∀ w s', Step .ours s w s' →
      (s'.table.Clean ∧
        (∀ i pid r, w = some (.alloc i pid r) → (s'.table.proc i).killed = 0) ∧
        (∀ i pid, w = some (.kill i pid) →
          (s.table.proc i).state ≠ .unused ∧ (s.table.proc i).pid = pid) ↔
      ∀ u ∈ w, u.KillsProcess s.table) := by
  refine ⟨h.clean, fun w s' hstep => ⟨?_, fun hk => ⟨(h.step hstep hk).clean, ?_, ?_⟩⟩⟩
  · rintro ⟨-, -, hkill⟩ u rfl
    cases u with
    | kill i pid => exact fun _ => (hkill i pid rfl).1
    | _ => trivial
  · rintro i pid r rfl
    have hi : (s.table.proc i).state = .unused := (hstep.guard h.run.inv _ rfl).1
    rw [hstep.table_eq]
    simp [Table.update, Update.slot, Update.body, allocproc, h.clean i hi, Proc.blank]
  · rintro i pid rfl
    have hpid : (s.table.proc i).pid = pid := hstep.guard h.run.inv _ rfl
    refine ⟨fun hf => ?_, hpid⟩
    have h0 : pid = 0 := hpid.symm.trans (h.run.inv.valid.free i hf).1
    exact hk _ rfl h0 hf

/-- `initproc` starts a process and kills it by its pid; the process runs, exits and is
reaped, and its slot is then as in the zeroed array. -/
theorem free_slots_clean_reaped :
    ∃ s : State 64, RunWhere .ours Update.KillsProcess
        [.reap 1 0 2 5, .dispatch 0, .exit 1 2 5, .dispatch 1, .yield 0, .kill 1 2, .start 1,
          .link 1 0, .alloc 1 2 0, .dispatch 0] s ∧
      (s.table.proc 1).state = .unused ∧ (s.table.Clean ∧ ∀ w s', Step .ours s w s' →
        (s'.table.Clean ∧
          (∀ i pid r, w = some (.alloc i pid r) → (s'.table.proc i).killed = 0) ∧
          (∀ i pid, w = some (.kill i pid) →
            (s.table.proc i).state ≠ .unused ∧ (s.table.proc i).pid = pid) ↔
        ∀ u ∈ w, u.KillsProcess s.table)) := by
  have h := Run.init_user (n := 64) .ours 0
  have h := h.fork_user (i := 1) 0 rfl (by simp)
  have h := h.kill_user (i := 1) 2 rfl
  have h := h.yield_user.dispatch_user (p := 1) rfl rfl
  have h := h.exit_user 5 (by simp) (by decide) (by decide)
  have h := h.dispatch_user (p := 0) rfl rfl
  have h := h.wait_user (i := 1) rfl rfl
  have hwhere := h.killsProcess (by simp)
  exact ⟨_, hwhere, rfl, free_slots_clean hwhere⟩

/-- `initproc` calls `kill(0)`: the call succeeds, a free slot is marked as killed, and
the next `fork` returns a process that is killed before it has run. -/
theorem kill_zero_marks_free_slot :
    ∃ (tr : List (Update 64)) (s : State 64), Run .ours (.kill 1 0 :: tr) s ∧
      (s.table.proc 1).state = .unused ∧ (s.table.proc 1).killed = 1 ∧
      ∃ tr' s', Run .ours (tr' ++ .kill 1 0 :: tr) s' ∧
        (s'.table.proc 1).state = .runnable ∧ (s'.table.proc 1).killed = 1 := by
  have h := Run.init_user (n := 64) .ours 0
  have h := h.kill_user (i := 1) 0 rfl
  have h' := h.fork_user (i := 1) 0 rfl (by simp)
  exact ⟨_, _, h, rfl, rfl, [_, _, _], _, h', rfl, rfl⟩

end OsLabs.Xv6
