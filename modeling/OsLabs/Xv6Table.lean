import OsLabs.Xv6

/-!
# The Process Table as an Abstract Machine

What the updates of the process table amount to when each is made only where it may be.
`Update.Guard` is the condition of each update on the table, and `History` is a sequence
of updates that all meet it. Nothing here knows of threads or locks; that every run of the
kernel is a history is proved over the program.

* `Table.Valid` holds along every history: `initproc` lives, the parent of a process
  lives, every process but `initproc` has a parent from its start to its end, and a free
  slot holds no process.
* `History.exits_eq`: what exits is reaped, once each and in order, with its pid and its
  status.
* `History.numbered`: pids are unique until `nextpid` wraps.
* `History.priority_mem`, `History.priority_eq`: where the priorities come from.
-/

namespace OsLabs.Xv6

open Lottery (ProcState)

variable {n : ℕ} {i p q : Fin n}

/-- A process that can be a parent: it has been started and has not exited. -/
def Live : ProcState → Bool
  | .runnable | .running | .sleeping => true
  | _ => false

/-- A process that has been started and has not been reaped. -/
def Started : ProcState → Bool
  | .zombie => true
  | s => Live s

section

-- the state that `kill` leaves
variable {x y : ProcState}

/-- `kill` makes a sleeper runnable, and changes no other state. -/
@[simp] theorem killed_state_eq (hy : y ≠ .runnable) :
    (if x = .sleeping then .runnable else x) = y ↔ x = y ∧ y ≠ .sleeping := by
  split
  · simp_all [eq_comm]
  · constructor
    · rintro rfl
      exact ⟨rfl, ‹_›⟩
    · exact And.left

/-- `kill` neither frees a slot nor takes one. -/
@[simp] theorem live_killed_state :
    Live (if x = .sleeping then .runnable else x) = Live x := by
  split <;> simp_all [Live]

/-- `kill` does not start a process. -/
@[simp] theorem started_killed_state :
    Started (if x = .sleeping then .runnable else x) = Started x := by
  split <;> simp_all [Started, Live]

end

variable {b : Build}

/-- `freeproc` leaves the slot unused. -/
@[simp] theorem freeproc_state (x : Proc n) : (freeproc b x).state = .unused := by
  cases b <;> rfl

/-- `freeproc` leaves the slot without a parent. -/
@[simp] theorem freeproc_parent (x : Proc n) : (freeproc b x).parent = none := by
  cases b <;> rfl

/-- `freeproc` leaves the slot without a pid. -/
@[simp] theorem freeproc_pid (x : Proc n) : (freeproc b x).pid = 0 := by
  cases b <;> rfl

/-- `allocproc` leaves the slot used. -/
@[simp] theorem allocproc_state (pid : ℤ) (r : ℕ) (x : Proc n) :
    (allocproc b pid r x).state = .used := by
  cases b <;> rfl

/-- `allocproc` does not touch the parent. -/
@[simp] theorem allocproc_parent (pid : ℤ) (r : ℕ) (x : Proc n) :
    (allocproc b pid r x).parent = x.parent := by
  cases b <;> rfl

/-- `allocproc` gives the slot the new pid. -/
@[simp] theorem allocproc_pid (pid : ℤ) (r : ℕ) (x : Proc n) :
    (allocproc b pid r x).pid = pid := by
  cases b <;> rfl

variable [NeZero n] {t : Table n} {u : Update n} {tr : List (Update n)}

/-- **When an update may be made.** -/
def Update.Guard (t : Table n) : Update n → Prop
  | alloc i pid _ => (t.proc i).state = .unused ∧ pid = t.nextpid
  | abort i => (t.proc i).state = .used
  | link i p => (t.proc i).state = .used ∧ (t.proc p).state = .running
  | start i => (t.proc i).state = .used ∧ (t.proc i).parent ≠ none
  | dispatch i => (t.proc i).state = .runnable
  | yield i | sleep i _ | tidy i => (t.proc i).state = .running
  | wake i => (t.proc i).state = .sleeping
  | reparent i p => (t.proc i).parent = some p
  | exit i pid _ => (t.proc i).state = .running ∧ i ≠ 0 ∧ pid = (t.proc i).pid ∧
      ∀ j, (t.proc j).parent ≠ some i
  | reap i p pid xstate => (t.proc i).state = .zombie ∧ (t.proc i).parent = some p ∧
      pid = (t.proc i).pid ∧ xstate = (t.proc i).xstate
  | kill i pid => (t.proc i).pid = pid
  | setPriority i p v => (t.proc i).parent = some p ∧ 0 ≤ v ∧ v ≤ 20

/-- A sequence of guarded updates from the boot state, the last one first. -/
inductive History (b : Build) : List (Update n) → Table n → Prop
  | boot (r : ℕ) : History b [] (boot b r).table
  | update {tr : List (Update n)} {t : Table n} {u : Update n} :
      History b tr t → u.Guard t → History b (u :: tr) (t.update b u)

/-! ### One update -/

/-- An update does its work in its slot. -/
@[simp] theorem update_proc_slot :
    (t.update b u).proc u.slot = u.body b (t.proc u.slot) := by
  simp [Table.update]

/-- An update leaves all other slots alone. -/
theorem update_proc_of_ne (h : i ≠ u.slot) : (t.update b u).proc i = t.proc i := by
  simp [Table.update, h]

/-- Every slot but the one written is as before. -/
theorem update_proc_cases (b : Build) (t : Table n) (u : Update n) (i : Fin n) :
    (i = u.slot ∧ (t.update b u).proc i = u.body b (t.proc i)) ∨
      (i ≠ u.slot ∧ (t.update b u).proc i = t.proc i) := by
  by_cases h : i = u.slot
  · exact .inl ⟨h, h ▸ update_proc_slot⟩
  · exact .inr ⟨h, update_proc_of_ne h⟩

/-- Only `exit` ends the life of a process. -/
theorem live_update (hu : u.Guard t) (hi : Live (t.proc i).state)
    (hx : ∀ pid st, u ≠ .exit i pid st) : Live ((t.update b u).proc i).state := by
  rcases update_proc_cases b t u i with ⟨rfl, he⟩ | ⟨-, he⟩
  · rw [he]
    cases u with
    | exit j pid st => exact absurd rfl (hx pid st)
    | kill j pid => simpa [Update.body] using hi
    | _ => simp_all [Update.Guard, Update.slot, Update.body, Live]
  · rwa [he]

/-- Only `fork` and `reparent` set a parent. -/
theorem parent_update (h : ((t.update b u).proc i).parent = some q) :
    (t.proc i).parent = some q ∨ u = .link i q ∨ (q = 0 ∧ ∃ p, u = .reparent i p) := by
  rcases update_proc_cases b t u i with ⟨rfl, he⟩ | ⟨-, he⟩
  · rw [he] at h
    cases u <;> simp_all [Update.body, Update.slot]
  · exact .inl (he ▸ h)

/-- A process that is started has a parent. -/
theorem orphan_update (hu : u.Guard t) (hs : Started ((t.update b u).proc i).state)
    (hp : ((t.update b u).proc i).parent = none) :
    Started (t.proc i).state ∧ (t.proc i).parent = none := by
  rcases update_proc_cases b t u i with ⟨rfl, he⟩ | ⟨-, he⟩
  · rw [he] at hs hp
    cases u with
    | kill j pid => simpa [Update.body] using And.intro hs hp
    | _ => simp_all [Update.Guard, Update.slot, Update.body, Started, Live]
  · exact he ▸ ⟨hs, hp⟩

/-- **What is true of the table at every moment**, also while some threads are in the middle of
their calls. -/
structure Table.Valid (t : Table n) : Prop where
  /-- `initproc` does not exit. -/
  init : Live (t.proc 0).state
  /-- A parent outlives its children. -/
  parent : ∀ i q, (t.proc i).parent = some q → Live (t.proc q).state
  /-- Only `initproc` has no parent. -/
  orphan : ∀ i, i ≠ 0 → Started (t.proc i).state → (t.proc i).parent ≠ none
  /-- No process is in a free slot. -/
  free : ∀ i, (t.proc i).state = .unused → (t.proc i).pid = 0 ∧ (t.proc i).parent = none

/-- A free slot has just been freed, or has been free before; then at most `kill` has
written it. -/
theorem unused_update (hv : t.Valid) (hu : u.Guard t)
    (h : ((t.update b u).proc i).state = .unused) :
    (∃ x, (t.update b u).proc i = freeproc b x) ∨ (t.proc i).state = .unused ∧
      ((t.update b u).proc i = t.proc i ∨
        ∃ pid, u = .kill i pid ∧ (t.update b u).proc i = { t.proc i with killed := 1 }) := by
  rcases update_proc_cases b t u i with ⟨rfl, he⟩ | ⟨-, he⟩
  · rw [he] at h ⊢
    cases u with
    | abort j | reap j p pid xstate => exact .inl ⟨_, rfl⟩
    | kill j pid =>
      have hj : (t.proc j).state = .unused := ((killed_state_eq (by simp)).mp h).1
      exact .inr ⟨hj, .inr ⟨pid, rfl, by simp [Update.body, Update.slot, hj]⟩⟩
    | reparent j p | setPriority j p v =>
      have := (hv.free j h).2
      simp_all [Update.Guard]
    | _ => simp_all [Update.Guard, Update.body, Update.slot]
  · exact .inr ⟨he ▸ h, .inl he⟩

/-- **Every update keeps the table valid**, if it is made when its guard holds. -/
theorem Table.Valid.update (hv : t.Valid) (hu : u.Guard t) : (t.update b u).Valid where
  init := live_update hu hv.init fun pid st he => by
    subst he
    exact hu.2.1 rfl
  parent := by
    intro i q h
    have hq : Live (t.proc q).state := by
      rcases parent_update h with h | rfl | ⟨rfl, p, rfl⟩
      · exact hv.parent i q h
      · simp [hu.2, Live]
      · exact hv.init
    refine live_update hu hq fun pid st he => ?_
    -- the children of a process that exits have been handed over before
    subst he
    rcases parent_update h with h | h | ⟨-, p, h⟩
    · exact hu.2.2.2 i h
    · cases h
    · cases h
  orphan := by
    intro i hi hs hp
    obtain ⟨hs, hp⟩ := orphan_update hu hs hp
    exact hv.orphan i hi hs hp
  free := by
    intro i h
    rcases unused_update hv hu h with ⟨x, he⟩ | ⟨hi, he | ⟨pid, -, he⟩⟩
    · simp [he]
    · rw [he]
      exact hv.free i hi
    · rw [he]
      exact hv.free i hi

/-- The table is valid after the boot. -/
theorem boot_valid (b : Build) (r : ℕ) : (boot b r : State n).table.Valid where
  init := by simp [boot, Live]
  parent := by
    intro i q h
    by_cases hi : i = 0 <;> simp_all [boot, Proc.blank]
  orphan := by
    intro i hi h
    simp_all [boot, Proc.blank, Started, Live]
  free := by
    intro i h
    by_cases hi : i = 0 <;> simp_all [boot, Proc.blank]

/-- **The table is valid** along every history. -/
theorem History.valid (h : History b tr t) : t.Valid := by
  induction h with
  | boot r => exact boot_valid b r
  | update _ hu ih => exact ih.update hu

/-! ### Exits and reaps -/

/-- The pid and status of an exit from slot `i`. -/
def Update.exited (i : Fin n) : Update n → Option (ℤ × ℤ)
  | exit j pid status => if j = i then some (pid, status) else none
  | _ => none

/-- The pid and status that a `wait` returns for slot `i`. -/
def Update.reaped (i : Fin n) : Update n → Option (ℤ × ℤ)
  | reap j _ pid xstate => if j = i then some (pid, xstate) else none
  | _ => none

/-- The pid and status of a process that has exited and has not been reaped. -/
def Proc.unreaped (x : Proc n) : List (ℤ × ℤ) :=
  match x.state with
  | .zombie => [(x.pid, x.xstate)]
  | _ => []

/-- An exit waits in its slot until it is reaped. -/
theorem exited_append_unreaped (hu : u.Guard t) :
    (u.exited i).toList ++ (t.proc i).unreaped =
      ((t.update b u).proc i).unreaped ++ (u.reaped i).toList := by
  rcases update_proc_cases b t u i with ⟨rfl, he⟩ | ⟨hi, he⟩
  · rw [he]
    cases u with
    | kill j pid =>
      by_cases hj : (t.proc j).state = .sleeping <;>
        simp [Update.exited, Update.reaped, Update.body, Update.slot, Proc.unreaped, hj]
    | _ =>
      simp_all [Update.Guard, Update.exited, Update.reaped, Update.body, Update.slot,
        Proc.unreaped]
  · rw [he]
    cases u <;> simp_all [Update.exited, Update.reaped, Update.slot, eq_comm]

/-- **What exits is reaped once and in order**: the exits from a slot are the one that is
not yet reaped, if there is one, and those that `wait` has returned. -/
theorem History.exits_eq (h : History b tr t) (i : Fin n) :
    tr.filterMap (Update.exited i) = (t.proc i).unreaped ++ tr.filterMap (Update.reaped i) := by
  induction h with
  | boot r => by_cases hi : i = 0 <;> simp [Xv6.boot, Proc.unreaped, Proc.blank, hi]
  | @update tr t u _ hu ih =>
    have := exited_append_unreaped (b := b) (i := i) hu
    calc (u :: tr).filterMap (Update.exited i)
        = (u.exited i).toList ++ tr.filterMap (Update.exited i) := by
          cases he : u.exited i <;> simp [he]
      _ = ((t.update b u).proc i).unreaped ++ (u.reaped i).toList ++
            tr.filterMap (Update.reaped i) := by
          rw [ih, ← List.append_assoc, this]
      _ = ((t.update b u).proc i).unreaped ++ (u :: tr).filterMap (Update.reaped i) := by
          cases he : u.reaped i <;> simp [he]

/-! ### Pids -/

/-- The number of processes that `fork` has allocated. -/
def allocs : List (Update n) → ℕ
  | [] => 0
  | .alloc _ _ _ :: tr => allocs tr + 1
  | _ :: tr => allocs tr

/-- Only `allocproc` gives a pid to a process. -/
theorem pid_update (hu : u.Guard t) (h : ((t.update b u).proc i).state ≠ .unused) :
    (∃ r, u = .alloc i t.nextpid r ∧ ((t.update b u).proc i).pid = t.nextpid) ∨
      (t.proc i).state ≠ .unused ∧ ((t.update b u).proc i).pid = (t.proc i).pid := by
  rcases update_proc_cases b t u i with ⟨rfl, he⟩ | ⟨-, he⟩
  · rw [he] at h ⊢
    cases u with
    | kill j pid => exact .inr ⟨by simpa [Update.body] using h, rfl⟩
    | _ => simp_all [Update.Guard, Update.body, Update.slot]
  · exact .inr ⟨he ▸ h, by rw [he]⟩

/-- The pids of a table whose `nextpid` has not wrapped. -/
structure Table.Numbered (t : Table n) (allocs : ℕ) : Prop where
  nextpid : t.nextpid = allocs + 2
  bounds : ∀ i, (t.proc i).state ≠ .unused →
    1 ≤ (t.proc i).pid ∧ (t.proc i).pid < t.nextpid
  injective : ∀ i j, (t.proc i).state ≠ .unused → (t.proc j).state ≠ .unused →
    (t.proc i).pid = (t.proc j).pid → i = j

/-- `nextpid` goes up by one with each allocation and by nothing else. -/
theorem nextpid_update (h : t.nextpid + allocs [u] < 2 ^ 31) (h0 : 0 ≤ t.nextpid) :
    (t.update b u).nextpid = t.nextpid + allocs [u] := by
  cases u with
  | alloc j pid r =>
    simp only [Table.update, Update.nextpid, allocs, Int.bmod] at h ⊢
    omega
  | _ => simp [Table.update, Update.nextpid, allocs]

/-- An update keeps the pids below the next one, and gives a new one to a new process. -/
theorem Table.Numbered.update {k : ℕ} (ht : t.Numbered k) (hu : u.Guard t)
    (hk : (k + allocs [u] : ℤ) + 2 < 2 ^ 31) : (t.update b u).Numbered (k + allocs [u]) := by
  have hn : (t.update b u).nextpid = t.nextpid + allocs [u] := by
    have := ht.nextpid
    exact nextpid_update (by omega) (by omega)
  refine ⟨by rw [hn, ht.nextpid]; push_cast; ring, ?_, ?_⟩
  · intro i hi
    rcases pid_update hu hi with ⟨r, rfl, hpi⟩ | ⟨hi', hpi⟩
    · rw [hn, hpi, ht.nextpid]
      simp only [allocs]
      omega
    · have := ht.bounds i hi'
      omega
  · intro i j hi hj he
    rcases pid_update hu hi with ⟨r, rfl, hpi⟩ | ⟨hi', hpi⟩
    · rcases pid_update hu hj with ⟨r', hr, -⟩ | ⟨hj', hpj⟩
      · exact congrArg Update.slot hr
      · have := (ht.bounds j hj').2
        omega
    · rcases pid_update hu hj with ⟨r', rfl, hpj⟩ | ⟨hj', hpj⟩
      · have := (ht.bounds i hi').2
        omega
      · exact ht.injective i j hi' hj' (by omega)

omit [NeZero n] in
/-- The allocations of a history, one update more. -/
theorem allocs_cons : allocs (u :: tr) = allocs tr + allocs [u] := by
  cases u <;> rfl

/-- **Pids are unique** while fewer than `2^31 - 1` have been allocated, that of
`initproc` included. -/
theorem History.numbered (h : History b tr t) (hk : allocs tr + 1 < 2 ^ 31 - 1) :
    t.Numbered (allocs tr) := by
  induction h with
  | boot r =>
    refine ⟨rfl, ?_, ?_⟩
    · intro i hi
      by_cases h0 : i = 0 <;> simp_all [Xv6.boot, Proc.blank]
    · intro i j hi hj _
      by_cases h0 : i = 0 <;> by_cases h1 : j = 0 <;> simp_all [Xv6.boot, Proc.blank]
  | @update tr t u _ hu ih =>
    rw [allocs_cons] at hk ⊢
    exact (ih (by omega)).update hu (by omega)

/-! ### Priorities -/

/-- The priority last set for slot `i`. -/
def lastPriority (i : Fin n) : List (Update n) → ℤ
  | [] => 0
  | .setPriority j _ v :: tr => if j = i then v else lastPriority i tr
  | _ :: tr => lastPriority i tr

/-- The priority of a slot changes by `sys_setPriority`, and in `proc_our.c` when a
process begins or ends. -/
theorem priority_update (b : Build) (t : Table n) (u : Update n) (i : Fin n) :
    ((t.update b u).proc i).priority = (t.proc i).priority ∨
      (∃ p v, u = .setPriority i p v ∧ ((t.update b u).proc i).priority = v) ∨
      b = .ours ∧ ((∃ pid r, u = .alloc i pid r ∧
          ((t.update b u).proc i).priority = if pid = 1 then 20 else 0) ∨
        ((t.update b u).proc i).state = .unused ∧ ((t.update b u).proc i).priority = 0) := by
  rcases update_proc_cases b t u i with ⟨rfl, he⟩ | ⟨-, he⟩
  · rw [he]
    cases u <;> cases b <;> simp [Update.body, Update.slot, allocproc, freeproc]
  · exact .inl (by rw [he])

/-- **Priorities stay between 0 and 20** along every history of updates. -/
theorem History.priority_mem (h : History b tr t) (i : Fin n) :
    0 ≤ (t.proc i).priority ∧ (t.proc i).priority ≤ 20 := by
  induction h with
  | boot r =>
    by_cases hi : i = 0 <;> cases b <;> simp [Xv6.boot, Proc.blank, allocproc, hi]
  | @update tr t u _ hu ih =>
    rcases priority_update b t u i with he | ⟨p, v, rfl, he⟩ | ⟨-, ⟨pid, r, rfl, he⟩ | ⟨-, he⟩⟩
    · omega
    · have := hu.2
      omega
    · split at he <;> omega
    · omega

/-- In `proc.c` a slot keeps the priority last set for it. -/
theorem History.priority_eq (h : History .standard tr t) (i : Fin n) :
    (t.proc i).priority = lastPriority i tr := by
  induction h with
  | boot r => by_cases hi : i = 0 <;> simp [Xv6.boot, Proc.blank, allocproc, hi, lastPriority]
  | @update tr t u _ hu ih =>
    rcases update_proc_cases .standard t u i with ⟨rfl, he⟩ | ⟨hi, he⟩
    · rw [he]
      cases u <;> simp_all [Update.body, Update.slot, allocproc, freeproc, lastPriority]
    · rw [he, ih]
      cases u <;> simp_all [Update.slot, lastPriority, eq_comm]

end OsLabs.Xv6
