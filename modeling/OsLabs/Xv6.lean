import OsLabs.Lottery

/-!
# Processes of xv6

The process table of `xv6/kernel/proc.c` and `proc_our.c` and the kernel threads that
work on it: `allocproc`, `freeproc`, `fork`, `exit`, `reparent`, `wait`, `sleep`,
`wakeup`, `kill`, `yield`, the dispatch by `scheduler`, and `sys_setPriority` of
`sysproc.c`. The two builds differ in the fields that `allocproc` and `freeproc` set, and
in how `scheduler` chooses among the runnable processes.

The model has two parts.

* `Update` lists what the code does to the table. Each update writes the fields of one
  slot (`Update.body`), and `Table.update` is its effect.
* `Thread` is the program of a kernel thread: from one program counter to the next it
  performs at most one lock operation and at most one update. `Step` is a move of the
  whole system: a thread makes its next move, a scheduler locks a slot and dispatches it
  or releases it, or an interrupt wakes a sleeper.

Moves are as small as the code between two lock operations, and smaller in the loops over
the table. The locks are `wait_lock` and the lock of each slot; `pid_lock`, which only
encloses `nextpid`, and the locks of other subsystems are not modelled. CPUs are not
named: a scheduler is whoever holds a slot's lock as `Holder.scheduler`, so a run is a run
on any number of CPUs. Which runnable process is dispatched is left open, as are the
failures of memory allocation and of `copyout`, the value of `rand`, and what user
programs call.
-/

namespace OsLabs.Xv6

open Lottery (ProcState)

/-! ### The table -/

/-- The two builds: `proc.c`, and `proc_our.c` under `USE_OUR_PROC`. -/
inductive Build where
  | standard
  | ours
deriving DecidableEq

/-- What a process sleeps on: a process, in `wait`, or an address elsewhere in the
kernel. -/
inductive Chan (n : ℕ) where
  | proc (p : Fin n)
  | other (addr : ℕ)
deriving DecidableEq

/-- The fields of `struct proc` that these functions share. -/
structure Proc (n : ℕ) where
  state : ProcState
  chan : Option (Chan n)
  killed : ℤ
  xstate : ℤ
  pid : ℤ
  parent : Option (Fin n)
  priority : ℤ
  tickets : ℕ
deriving DecidableEq

/-- `proc[NPROC]` and `nextpid`. -/
structure Table (n : ℕ) where
  proc : Fin n → Proc n
  nextpid : ℤ

variable {n : ℕ}

/-- A slot of the zeroed array. -/
def Proc.blank : Proc n := ⟨.unused, none, 0, 0, 0, none, 0, 0⟩

/-- What `allocproc` does to the slot it has found; `r` is the value of `rand()`. -/
def allocproc (b : Build) (pid : ℤ) (r : ℕ) (p : Proc n) : Proc n :=
  match b with
  | .standard => { p with pid, state := .used }
  | .ours =>
    { p with pid, state := .used, priority := if pid = 1 then 20 else 0,
             tickets := r % 50 + 50 }

/-- `freeproc`. -/
def freeproc (b : Build) (p : Proc n) : Proc n :=
  let p := { p with pid := 0, parent := none, chan := none, killed := 0, xstate := 0,
                    state := .unused }
  match b with
  | .standard => p
  | .ours => { p with tickets := 0, priority := 0 }

/-- What the code does to one slot `i` of the table. The other arguments say who does it
and with which values. -/
inductive Update (n : ℕ) where
  /-- `allocproc` takes the free slot. -/
  | alloc (i : Fin n) (pid : ℤ) (r : ℕ)
  /-- A failed `fork` frees it again. -/
  | abort (i : Fin n)
  /-- `np->parent = p` in `fork` by process `p`. -/
  | link (i p : Fin n)
  /-- `np->state = RUNNABLE` in `fork`. -/
  | start (i : Fin n)
  /-- `p->state = RUNNING` in `scheduler`. -/
  | dispatch (i : Fin n)
  /-- `p->state = RUNNABLE` in `yield`. -/
  | yield (i : Fin n)
  /-- `p->chan = chan; p->state = SLEEPING` in `sleep`. -/
  | sleep (i : Fin n) (chan : Chan n)
  /-- `p->chan = 0` in `sleep`. -/
  | tidy (i : Fin n)
  /-- `p->state = RUNNABLE` in `wakeup`. -/
  | wake (i : Fin n)
  /-- `pp->parent = initproc` in `reparent` of process `p`. -/
  | reparent (i p : Fin n)
  /-- `p->xstate = status; p->state = ZOMBIE` in `exit` of the process with this pid. -/
  | exit (i : Fin n) (pid status : ℤ)
  /-- `freeproc(pp)` in `wait` by process `p`, which returns `pid` and copies `xstate`. -/
  | reap (i p : Fin n) (pid xstate : ℤ)
  /-- `kill(pid)` has found the slot. -/
  | kill (i : Fin n) (pid : ℤ)
  /-- `p->priority = priority` in `sys_setPriority` by process `p`. -/
  | setPriority (i p : Fin n) (priority : ℤ)
deriving DecidableEq

namespace Update

/-- The slot that is written. -/
def slot : Update n → Fin n
  | alloc i _ _ | abort i | link i _ | start i | dispatch i | yield i | sleep i _ | tidy i
  | wake i | reparent i _ | exit i _ _ | reap i _ _ _ | kill i _ | setPriority i _ _ => i

section

variable [NeZero n]

/-- The new contents of the slot. `initproc` is slot 0, the first that `allocproc`
returns. -/
def body (b : Build) (p : Proc n) : Update n → Proc n
  | alloc _ pid r => allocproc b pid r p
  | abort _ => freeproc b p
  | link _ q => { p with parent := some q }
  | start _ => { p with state := .runnable }
  | dispatch _ => { p with state := .running }
  | yield _ => { p with state := .runnable }
  | sleep _ chan => { p with chan := some chan, state := .sleeping }
  | tidy _ => { p with chan := none }
  | wake _ => { p with state := .runnable }
  | reparent _ _ => { p with parent := some 0 }
  | exit _ _ status => { p with xstate := status, state := .zombie }
  | reap _ _ _ _ => freeproc b p
  | kill _ _ =>
    { p with killed := 1, state := if p.state = .sleeping then .runnable else p.state }
  | setPriority _ _ priority => { p with priority }

end

/-- `nextpid` after the update: `allocpid` adds 1 to an `int`. -/
def nextpid (old : ℤ) : Update n → ℤ
  | alloc _ _ _ => (old + 1).bmod (2 ^ 32)
  | _ => old

end Update

/-- The table after an update. -/
def Table.update [NeZero n] (b : Build) (u : Update n) (t : Table n) : Table n where
  proc := Function.update t.proc u.slot (u.body b (t.proc u.slot))
  nextpid := u.nextpid t.nextpid

/-- The table after a move with or without an update. -/
def Table.updates [NeZero n] (b : Build) (t : Table n) : Option (Update n) → Table n
  | none => t
  | some u => t.update b u

/-- A move without an update leaves the table as it is. -/
@[simp] theorem Table.updates_none [NeZero n] (b : Build) (t : Table n) :
    t.updates b none = t := rfl

/-- A move with an update makes it. -/
@[simp] theorem Table.updates_some [NeZero n] (b : Build) (t : Table n) (u : Update n) :
    t.updates b (some u) = t.update b u := rfl

/-! ### Threads -/

/-- Where a thread is while it holds no slot's lock. Loops over the table carry the slots
still ahead, `wake` also where it returns to. -/
inductive Point (n : ℕ) where
  /-- In user space, or in the kernel between calls. -/
  | user
  /-- About to release `wait_lock`. -/
  | unlockWait (k : Point n)
  /-- About to lock its own slot in `yield`. -/
  | yieldLock (k : Point n)
  | allocScan (rest : List (Fin n))
  /-- In `fork`, about to take `wait_lock` to set `np->parent`. -/
  | forkLink (np : Fin n)
  /-- In `fork`, about to lock `np` to make it runnable. -/
  | forkRun (np : Fin n)
  /-- About to take `wait_lock` in `wait`. -/
  | waitEnter (addr : ℕ)
  | waitScan (addr : ℕ) (rest : List (Fin n)) (havekids : Bool)
  /-- In `wait`, about to lock its own slot in `sleep`. -/
  | waitSleep (addr : ℕ)
  /-- About to lock its own slot in `sleep` on an address of another subsystem. -/
  | sleepLock (addr : ℕ)
  | wake (chan : Option (Chan n)) (rest : List (Fin n)) (k : Point n)
  /-- About to take `wait_lock` in `exit`. -/
  | exitEnter (status : ℤ)
  | reparent (rest : List (Fin n)) (status : ℤ)
  /-- In `exit`, about to lock its own slot. -/
  | exitLock (status : ℤ)
  | killScan (pid : ℤ) (rest : List (Fin n))
  | prioScan (pid priority : ℤ) (rest : List (Fin n))
deriving DecidableEq

/-- The program counter of a kernel thread: the point of the source where it is, with its local
variables. -/
inductive Pc (n : ℕ) where
  | run (k : Point n)
  /-- Holds the lock of slot `i` and is about to release it. -/
  | unlock (i : Fin n) (k : Point n)
  /-- In `fork`, holds the lock of `np`, which `allocproc` has returned. -/
  | forkCopy (np : Fin n)
  /-- In `yield`, holds its own lock. -/
  | yieldSet (k : Point n)
  /-- Switched out in `yield`, or not yet started. -/
  | yielded (k : Point n)
  /-- In `sleep` called by `wait`, holds its own lock and `wait_lock`. -/
  | waitRelease (addr : ℕ)
  /-- In `sleep`, holds its own lock, about to set the state and switch. -/
  | sleepSet (chan : Chan n) (k : Point n)
  /-- Switched out in `sleep`. -/
  | slept (k : Point n)
  /-- Back in `sleep`, holds its own lock. -/
  | tidy (k : Point n)
  /-- In `exit`, a zombie that holds its own lock and `wait_lock`. -/
  | exitRelease
  /-- In `exit`, a zombie that holds its own lock, about to switch. -/
  | exitSched
  /-- No thread, or one that never runs again. -/
  | dead
deriving DecidableEq

/-- The points at which a timer interrupt can make the thread yield: no spin lock is
held. -/
def Point.Preemptible : Point n → Bool
  | .user | .allocScan _ | .forkLink _ | .forkRun _ | .waitEnter _ | .exitEnter _
  | .killScan _ _ | .prioScan _ _ _ => true
  | .wake _ _ k => k.Preemptible
  | _ => false

/-- A lock operation of a thread. `sched` is the switch to the scheduler, which takes over
the lock of the thread's own slot. -/
inductive LockAct (n : ℕ) where
  | idle
  | acquire (i : Fin n)
  | release (i : Fin n)
  | acquireWait
  | releaseWait
  | sched

/-- **The program of a kernel thread.** `Thread t p c a u c'`: process `p` at `c`, with
the table `t`, moves to `c'` by the lock operation `a` and the update `u`. -/
inductive Thread [NeZero n] (t : Table n) (p : Fin n) :
    Pc n → LockAct n → Option (Update n) → Pc n → Prop
  -- the calls of user programs and of the rest of the kernel
  | callFork : Thread t p (.run .user) .idle none (.run (.allocScan (List.finRange n)))
  | callExit {status : ℤ} : p ≠ 0 →
      Thread t p (.run .user) .idle none (.run (.exitEnter status))
  | callWait {addr : ℕ} : Thread t p (.run .user) .idle none (.run (.waitEnter addr))
  | callKill {pid : ℤ} :
      Thread t p (.run .user) .idle none (.run (.killScan pid (List.finRange n)))
  | callSetPriority {pid priority : ℤ} : 0 ≤ priority → priority ≤ 20 →
      pid ≠ (t.proc p).pid →
      Thread t p (.run .user) .idle none (.run (.prioScan pid priority (List.finRange n)))
  | callSleep {addr : ℕ} : Thread t p (.run .user) .idle none (.run (.sleepLock addr))
  | callWakeup {addr : ℕ} : Thread t p (.run .user) .idle none
      (.run (.wake (some (.other addr)) (List.finRange n) .user))
  -- `yield`, called in a system call or by a timer interrupt
  | callYield {k : Point n} : k.Preemptible →
      Thread t p (.run k) .idle none (.run (.yieldLock k))
  | yieldLock {k : Point n} :
      Thread t p (.run (.yieldLock k)) (.acquire p) none (.yieldSet k)
  | yieldSet {k : Point n} : Thread t p (.yieldSet k) .sched (some (.yield p)) (.yielded k)
  | unlock {i : Fin n} {k : Point n} :
      Thread t p (.unlock i k) (.release i) none (.run k)
  | unlockWait {k : Point n} :
      Thread t p (.run (.unlockWait k)) .releaseWait none (.run k)
  -- `fork`; the turn of `allocproc` that finds a free slot is `Step.alloc`
  | allocTaken {i : Fin n} {rest : List (Fin n)} : (t.proc i).state ≠ .unused →
      Thread t p (.run (.allocScan (i :: rest))) (.acquire i) none
        (.unlock i (.allocScan rest))
  | allocNone : Thread t p (.run (.allocScan [])) .idle none (.run .user)
  | forkFail {np : Fin n} :
      Thread t p (.forkCopy np) (.release np) (some (.abort np)) (.run .user)
  | forkCopied {np : Fin n} :
      Thread t p (.forkCopy np) (.release np) none (.run (.forkLink np))
  | forkLink {np : Fin n} :
      Thread t p (.run (.forkLink np)) .acquireWait (some (.link np p))
        (.run (.unlockWait (.forkRun np)))
  | forkRun {np : Fin n} :
      Thread t p (.run (.forkRun np)) (.acquire np) (some (.start np)) (.unlock np .user)
  -- `wait`; `pp->parent` does not change between its test and the lock of `pp`
  | waitEnter {addr : ℕ} :
      Thread t p (.run (.waitEnter addr)) .acquireWait none
        (.run (.waitScan addr (List.finRange n) false))
  | waitSkip {addr : ℕ} {i : Fin n} {rest : List (Fin n)} {havekids : Bool} :
      (t.proc i).parent ≠ some p →
      Thread t p (.run (.waitScan addr (i :: rest) havekids)) .idle none
        (.run (.waitScan addr rest havekids))
  | waitChild {addr : ℕ} {i : Fin n} {rest : List (Fin n)} {havekids : Bool} :
      (t.proc i).parent = some p → (t.proc i).state ≠ .zombie →
      Thread t p (.run (.waitScan addr (i :: rest) havekids)) (.acquire i) none
        (.unlock i (.waitScan addr rest true))
  | waitReap {addr : ℕ} {i : Fin n} {rest : List (Fin n)} {havekids : Bool} :
      (t.proc i).parent = some p → (t.proc i).state = .zombie →
      Thread t p (.run (.waitScan addr (i :: rest) havekids)) (.acquire i)
        (some (.reap i p (t.proc i).pid (t.proc i).xstate)) (.unlock i (.unlockWait .user))
  -- `copyout` to a nonzero address fails
  | waitFault {addr : ℕ} {i : Fin n} {rest : List (Fin n)} {havekids : Bool} :
      (t.proc i).parent = some p → (t.proc i).state = .zombie → addr ≠ 0 →
      Thread t p (.run (.waitScan addr (i :: rest) havekids)) (.acquire i) none
        (.unlock i (.unlockWait .user))
  | waitNone {addr : ℕ} :
      Thread t p (.run (.waitScan addr [] false)) .idle none (.run (.unlockWait .user))
  | waitKilled {addr : ℕ} : (t.proc p).killed ≠ 0 →
      Thread t p (.run (.waitScan addr [] true)) (.acquire p) none
        (.unlock p (.unlockWait .user))
  | waitAlive {addr : ℕ} : (t.proc p).killed = 0 →
      Thread t p (.run (.waitScan addr [] true)) (.acquire p) none
        (.unlock p (.waitSleep addr))
  -- `sleep`; woken up in `wait`, it takes `wait_lock` and scans again
  | waitSleep {addr : ℕ} :
      Thread t p (.run (.waitSleep addr)) (.acquire p) none (.waitRelease addr)
  | waitRelease {addr : ℕ} :
      Thread t p (.waitRelease addr) .releaseWait none (.sleepSet (.proc p) (.waitEnter addr))
  | sleepLock {addr : ℕ} :
      Thread t p (.run (.sleepLock addr)) (.acquire p) none (.sleepSet (.other addr) .user)
  | sleepSet {chan : Chan n} {k : Point n} :
      Thread t p (.sleepSet chan k) .sched (some (.sleep p chan)) (.slept k)
  | tidy {k : Point n} : Thread t p (.tidy k) .idle (some (.tidy p)) (.unlock p k)
  -- `wakeup`
  | wakeSelf {chan : Option (Chan n)} {rest : List (Fin n)} {k : Point n} :
      Thread t p (.run (.wake chan (p :: rest) k)) .idle none (.run (.wake chan rest k))
  | wakeMiss {chan : Option (Chan n)} {i : Fin n} {rest : List (Fin n)} {k : Point n} :
      i ≠ p → ¬ ((t.proc i).state = .sleeping ∧ (t.proc i).chan = chan) →
      Thread t p (.run (.wake chan (i :: rest) k)) (.acquire i) none
        (.unlock i (.wake chan rest k))
  | wakeHit {chan : Option (Chan n)} {i : Fin n} {rest : List (Fin n)} {k : Point n} :
      i ≠ p → (t.proc i).state = .sleeping → (t.proc i).chan = chan →
      Thread t p (.run (.wake chan (i :: rest) k)) (.acquire i) (some (.wake i))
        (.unlock i (.wake chan rest k))
  | wakeDone {chan : Option (Chan n)} {k : Point n} :
      Thread t p (.run (.wake chan [] k)) .idle none (.run k)
  -- `exit`
  | exitEnter {status : ℤ} :
      Thread t p (.run (.exitEnter status)) .acquireWait none
        (.run (.reparent (List.finRange n) status))
  | reparentSkip {i : Fin n} {rest : List (Fin n)} {status : ℤ} :
      (t.proc i).parent ≠ some p →
      Thread t p (.run (.reparent (i :: rest) status)) .idle none
        (.run (.reparent rest status))
  | reparentTake {i : Fin n} {rest : List (Fin n)} {status : ℤ} :
      (t.proc i).parent = some p →
      Thread t p (.run (.reparent (i :: rest) status)) .idle (some (.reparent i p))
        (.run (.wake (some (.proc 0)) (List.finRange n) (.reparent rest status)))
  | reparentDone {status : ℤ} :
      Thread t p (.run (.reparent [] status)) .idle none
        (.run (.wake ((t.proc p).parent.map .proc) (List.finRange n) (.exitLock status)))
  | exitLock {status : ℤ} :
      Thread t p (.run (.exitLock status)) (.acquire p)
        (some (.exit p (t.proc p).pid status)) .exitRelease
  | exitRelease : Thread t p .exitRelease .releaseWait none .exitSched
  | exitSched : Thread t p .exitSched .sched none .dead
  -- `kill`
  | killMiss {pid : ℤ} {i : Fin n} {rest : List (Fin n)} : (t.proc i).pid ≠ pid →
      Thread t p (.run (.killScan pid (i :: rest))) (.acquire i) none
        (.unlock i (.killScan pid rest))
  | killHit {pid : ℤ} {i : Fin n} {rest : List (Fin n)} : (t.proc i).pid = pid →
      Thread t p (.run (.killScan pid (i :: rest))) (.acquire i) (some (.kill i pid))
        (.unlock i .user)
  | killNone {pid : ℤ} : Thread t p (.run (.killScan pid [])) .idle none (.run .user)
  -- `sys_setPriority`
  | prioMiss {pid priority : ℤ} {i : Fin n} {rest : List (Fin n)} : (t.proc i).pid ≠ pid →
      Thread t p (.run (.prioScan pid priority (i :: rest))) (.acquire i) none
        (.unlock i (.prioScan pid priority rest))
  | prioRefuse {pid priority : ℤ} {i : Fin n} {rest : List (Fin n)} :
      (t.proc i).pid = pid → (t.proc i).parent ≠ some p →
      Thread t p (.run (.prioScan pid priority (i :: rest))) (.acquire i) none
        (.unlock i .user)
  | prioSet {pid priority : ℤ} {i : Fin n} {rest : List (Fin n)} :
      (t.proc i).pid = pid → (t.proc i).parent = some p →
      Thread t p (.run (.prioScan pid priority (i :: rest))) (.acquire i)
        (some (.setPriority i p priority)) (.unlock i .user)
  | prioNone {pid priority : ℤ} :
      Thread t p (.run (.prioScan pid priority [])) .idle none (.run .user)

/-! ### The system -/

/-- Who holds the lock of a slot: the thread of a process, or a scheduler or interrupt
handler. -/
inductive Holder (n : ℕ) where
  | thread (p : Fin n)
  | scheduler
deriving DecidableEq

/-- The table, the locks and the program counter of every thread: all that the moves read and
change. -/
structure State (n : ℕ) where
  table : Table n
  waitLock : Option (Fin n)
  lock : Fin n → Option (Holder n)
  pc : Fin n → Pc n

namespace LockAct

/-- A lock can be acquired when it is free. -/
def Enabled (s : State n) : LockAct n → Prop
  | acquire i => s.lock i = none
  | acquireWait => s.waitLock = none
  | _ => True

/-- `wait_lock` after the operation by process `p`. -/
def waitLock (p : Fin n) (old : Option (Fin n)) : LockAct n → Option (Fin n)
  | acquireWait => some p
  | releaseWait => none
  | _ => old

/-- The locks of the slots after the operation by process `p`. -/
def lock (p : Fin n) (old : Fin n → Option (Holder n)) :
    LockAct n → Fin n → Option (Holder n)
  | acquire i => Function.update old i (some (.thread p))
  | release i => Function.update old i none
  | sched => Function.update old p (some .scheduler)
  | _ => old

end LockAct

/-- Where a dispatched thread goes on: it holds its own lock. -/
inductive Resumes (p : Fin n) : Pc n → Pc n → Prop
  | yielded {k : Point n} : Resumes p (.yielded k) (.unlock p k)
  | slept {k : Point n} : Resumes p (.slept k) (.tidy k)

/-- **The moves of the system**, with the update of the table, if any. -/
inductive Step [NeZero n] (b : Build) (s : State n) : Option (Update n) → State n → Prop
  | thread {p : Fin n} {a : LockAct n} {u : Option (Update n)} {c : Pc n} :
      Thread s.table p (s.pc p) a u c → a.Enabled s →
      Step b s u ⟨s.table.updates b u, a.waitLock p s.waitLock, a.lock p s.lock,
        Function.update s.pc p c⟩
  /-- `allocproc` in `fork` of process `p` finds a free slot; its thread will start in
  `forkret`. -/
  | alloc {p i : Fin n} {rest : List (Fin n)} (r : ℕ) :
      s.pc p = .run (.allocScan (i :: rest)) → s.lock i = none →
      (s.table.proc i).state = .unused →
      Step b s (some (.alloc i s.table.nextpid r))
        ⟨s.table.update b (.alloc i s.table.nextpid r), s.waitLock,
          Function.update s.lock i (some (.thread p)),
          Function.update (Function.update s.pc i (.yielded .user)) p (.forkCopy i)⟩
  /-- A scheduler switches to a runnable process. -/
  | dispatch {p : Fin n} {c : Pc n} : s.lock p = none →
      (s.table.proc p).state = .runnable → Resumes p (s.pc p) c →
      Step b s (some (.dispatch p)) ⟨s.table.update b (.dispatch p), s.waitLock,
        Function.update s.lock p (some (.thread p)), Function.update s.pc p c⟩
  /-- A scheduler looks at a slot and does not switch to it. -/
  | look {i : Fin n} : s.lock i = none →
      Step b s none ⟨s.table, s.waitLock, Function.update s.lock i (some .scheduler), s.pc⟩
  /-- A scheduler or interrupt handler releases a slot. -/
  | drop {i : Fin n} : s.lock i = some .scheduler →
      Step b s none ⟨s.table, s.waitLock, Function.update s.lock i none, s.pc⟩
  /-- An interrupt handler wakes a process that sleeps on an address of its subsystem. -/
  | interrupt {i : Fin n} {addr : ℕ} : s.lock i = none →
      (s.table.proc i).state = .sleeping → (s.table.proc i).chan = some (.other addr) →
      Step b s (some (.wake i)) ⟨s.table.update b (.wake i), s.waitLock,
        Function.update s.lock i (some .scheduler), s.pc⟩

/-- The state that `userinit` leaves: `initproc` in slot 0, about to start in `forkret`.
The value of `rand()` is `r`. -/
def boot [NeZero n] (b : Build) (r : ℕ) : State n where
  table :=
    { proc := Function.update (fun _ => Proc.blank) 0
        { allocproc b 1 r Proc.blank with state := .runnable }
      nextpid := 2 }
  waitLock := none
  lock _ := none
  pc := Function.update (fun _ => .dead) 0 (.yielded .user)

/-- **Runs** from the boot state, with their updates, the last one first. -/
inductive Run [NeZero n] (b : Build) : List (Update n) → State n → Prop
  | boot (r : ℕ) : Run b [] (boot b r)
  | step {tr : List (Update n)} {s s' : State n} {u : Option (Update n)} :
      Run b tr s → Step b s u s' → Run b (u.toList ++ tr) s'

end OsLabs.Xv6
