import OsLabs.RingBuffer
import OsLabs.Transitions

/-!
# Pipes of xv6

`pipewrite`, `piperead` and `pipeclose` of `xv6/kernel/pipe.c`, called by any number of
threads on one pipe. The counters `nread` and `nwrite` are 32-bit and wrap.

`Step` is a move of one thread: a turn of a loop while it holds `pi->lock`, or the taking of
the lock. The results of `copyin` and `copyout` are left open, as is when a process is
killed. `sleep` releases the lock and sleeps at once. `pipeclose` of an end comes from
`fileclose` with the last reference, so that no call on that end is in progress.

## Main results

* `Step.outcome`: what a step can do, each branch of the loops with what it has tested.
-/

namespace OsLabs.Xv6Pipe

/-- The bytes that the buffer has room for. -/
def PIPESIZE : ℕ := 512

/-- `struct pipe` but for its lock: the ring buffer, its two counters, and whether the ends are
open. -/
structure Pipe where
  data : ℕ → UInt8
  nread : BitVec 32
  nwrite : BitVec 32
  readopen : Bool
  writeopen : Bool

namespace Pipe

variable (p : Pipe)

/-- The test of `pipewrite`. -/
def Full : Prop := p.nwrite = p.nread + BitVec.ofNat 32 PIPESIZE

/-- The test of `piperead`. -/
def Empty : Prop := p.nread = p.nwrite

instance : Decidable p.Full := inferInstanceAs (Decidable (_ = _))

instance : Decidable p.Empty := inferInstanceAs (Decidable (_ = _))

/-- `pi->data[pi->nwrite++ % PIPESIZE] = ch`. -/
def put (ch : UInt8) : Pipe :=
  { p with data := Function.update p.data (p.nwrite.toNat % PIPESIZE) ch, nwrite := p.nwrite + 1 }

/-- The byte that `pi->data[pi->nread++ % PIPESIZE]` reads. -/
def first : UInt8 := p.data (p.nread.toNat % PIPESIZE)

/-- `pi->nread++`. -/
def take : Pipe := { p with nread := p.nread + 1 }

/-- The bytes in the buffer. -/
def contents : List UInt8 := ringContents PIPESIZE p.data p.nread p.nwrite

end Pipe

/-! ### Threads -/

/-- Where a thread is in a call of `pipewrite` or `piperead` for `n` bytes, `i` of which are
done. -/
inductive Pc where
  | outside
  /-- About to take the lock. -/
  | writeEnter (n : ℤ) (i : ℕ)
  /-- At the loop of `pipewrite`. -/
  | writing (n : ℤ) (i : ℕ)
  /-- In `sleep(&pi->nwrite, &pi->lock)`. -/
  | writeAsleep (n : ℤ) (i : ℕ)
  /-- After the loop. -/
  | writeDone (n : ℤ) (i : ℕ)
  | readEnter (n : ℤ)
  /-- At the first loop of `piperead`. -/
  | reading (n : ℤ)
  /-- In `sleep(&pi->nread, &pi->lock)`. -/
  | readAsleep (n : ℤ)
  /-- At the second loop. -/
  | copying (n : ℤ) (i : ℕ)
  /-- After it. -/
  | readDone (n : ℤ) (i : ℕ)
deriving DecidableEq

namespace Pc

/-- The thread has `pi->lock`. -/
def holds : Pc → Bool
  | writing _ _ | writeDone _ _ | reading _ | copying _ _ | readDone _ _ => true
  | _ => false

/-- The thread is in `pipewrite`. -/
def inWrite : Pc → Bool
  | writeEnter _ _ | writing _ _ | writeAsleep _ _ | writeDone _ _ => true
  | _ => false

/-- The thread is in `piperead`. -/
def inRead : Pc → Bool
  | readEnter _ | reading _ | readAsleep _ | copying _ _ | readDone _ _ => true
  | _ => false

/-- Where a thread continues when it has got the lock. -/
def acquired : Pc → Option Pc
  | writeEnter n i => some (writing n i)
  | readEnter n => some (reading n)
  | _ => none

/-- What `wakeup(&pi->nread)` does to a thread. -/
def wakeReader : Pc → Pc
  | readAsleep n => readEnter n
  | p => p

/-- What `wakeup(&pi->nwrite)` does to a thread. -/
def wakeWriter : Pc → Pc
  | writeAsleep n i => writeEnter n i
  | p => p

end Pc

/-- What a step shows: a byte stored, a byte taken and whether `copyout` took it, the value
that a call returns. -/
inductive Act (Tid : Type) where
  | put (t : Tid) (ch : UInt8)
  | take (t : Tid) (ch : UInt8) (ok : Bool)
  | ret (t : Tid) (v : ℤ)
  | silent

/-- The pipe, the holder of `pi->lock`, where each thread is, and who has been killed. -/
structure State (Tid : Type) where
  pipe : Pipe
  lock : Option Tid
  pc : Tid → Pc
  killed : Tid → Bool

variable {Tid : Type} [DecidableEq Tid]

namespace State

variable (s : State Tid)

/-- The thread continues at another place. -/
def goto (t : Tid) (p : Pc) : State Tid := { s with pc := Function.update s.pc t p }

omit [DecidableEq Tid] in
/-- `wakeup(&pi->nread)`. -/
def wakeReaders : State Tid := { s with pc := fun t => (s.pc t).wakeReader }

omit [DecidableEq Tid] in
/-- `wakeup(&pi->nwrite)`. -/
def wakeWriters : State Tid := { s with pc := fun t => (s.pc t).wakeWriter }

/-- Release the lock and continue at `p`. -/
def release (t : Tid) (p : Pc) : State Tid := { s.goto t p with lock := none }

/-- A turn of the loop of `pipewrite`; `ch` is what `copyin` gets, if it does. -/
def writeTurn (t : Tid) (n : ℤ) (i : ℕ) (ch : Option UInt8) : Act Tid × State Tid :=
  if i < n then
    if s.pipe.readopen = false ∨ s.killed t = true then (.ret t (-1), s.release t .outside)
    else if s.pipe.Full then (.silent, s.wakeReaders.release t (.writeAsleep n i))
    else match ch with
      | none => (.silent, s.goto t (.writeDone n i))
      | some ch => (.put t ch, { s.goto t (.writing n (i + 1)) with pipe := s.pipe.put ch })
  else (.silent, s.goto t (.writeDone n i))

/-- The end of `pipewrite`. -/
def writeEnd (t : Tid) (i : ℕ) : Act Tid × State Tid :=
  (.ret t i, s.wakeReaders.release t .outside)

/-- A turn of the first loop of `piperead`. -/
def readTurn (t : Tid) (n : ℤ) : Act Tid × State Tid :=
  if s.pipe.Empty ∧ s.pipe.writeopen = true then
    if s.killed t = true then (.ret t (-1), s.release t .outside)
    else (.silent, s.release t (.readAsleep n))
  else (.silent, s.goto t (.copying n 0))

/-- A turn of the second loop of `piperead`; `ok` says whether `copyout` succeeds. -/
def copyTurn (t : Tid) (n : ℤ) (i : ℕ) (ok : Bool) : Act Tid × State Tid :=
  if i < n then
    if s.pipe.Empty then (.silent, s.goto t (.readDone n i))
    else (.take t s.pipe.first ok,
      { s.goto t (if ok then .copying n (i + 1) else .readDone n i) with pipe := s.pipe.take })
  else (.silent, s.goto t (.readDone n i))

/-- The end of `piperead`. -/
def readEnd (t : Tid) (i : ℕ) : Act Tid × State Tid :=
  (.ret t i, s.wakeWriters.release t .outside)

omit [DecidableEq Tid] in
/-- `pipeclose(pi, 1)`. -/
def closeWrite : State Tid :=
  { s.wakeReaders with pipe := { s.pipe with writeopen := false } }

omit [DecidableEq Tid] in
/-- `pipeclose(pi, 0)`. -/
def closeRead : State Tid :=
  { s.wakeWriters with pipe := { s.pipe with readopen := false } }

/-- `kill`, which also wakes the process. -/
def kill (t : Tid) : State Tid :=
  { s.goto t (s.pc t).wakeReader.wakeWriter with killed := Function.update s.killed t true }

end State

/-- A move of one thread, with what is seen of it. -/
inductive Step (s : State Tid) : Act Tid → State Tid → Prop
  | callWrite (t : Tid) (n : ℤ) (ht : s.pc t = .outside) (hopen : s.pipe.writeopen = true) :
      Step s .silent (s.goto t (.writeEnter n 0))
  | callRead (t : Tid) (n : ℤ) (ht : s.pc t = .outside) (hopen : s.pipe.readopen = true) :
      Step s .silent (s.goto t (.readEnter n))
  | acquire (t : Tid) (p : Pc) (hlock : s.lock = none) (ht : (s.pc t).acquired = some p) :
      Step s .silent { s.goto t p with lock := some t }
  | writeTurn (t : Tid) (n : ℤ) (i : ℕ) (ch : Option UInt8) (ht : s.pc t = .writing n i) :
      Step s (s.writeTurn t n i ch).1 (s.writeTurn t n i ch).2
  | writeEnd (t : Tid) (n : ℤ) (i : ℕ) (ht : s.pc t = .writeDone n i) :
      Step s (s.writeEnd t i).1 (s.writeEnd t i).2
  | readTurn (t : Tid) (n : ℤ) (ht : s.pc t = .reading n) :
      Step s (s.readTurn t n).1 (s.readTurn t n).2
  | copyTurn (t : Tid) (n : ℤ) (i : ℕ) (ok : Bool) (ht : s.pc t = .copying n i) :
      Step s (s.copyTurn t n i ok).1 (s.copyTurn t n i ok).2
  | readEnd (t : Tid) (n : ℤ) (i : ℕ) (ht : s.pc t = .readDone n i) :
      Step s (s.readEnd t i).1 (s.readEnd t i).2
  | closeWrite (hlock : s.lock = none) (hin : ∀ t, (s.pc t).inWrite = false) :
      Step s .silent s.closeWrite
  | closeRead (hlock : s.lock = none) (hin : ∀ t, (s.pc t).inRead = false) :
      Step s .silent s.closeRead
  | kill (t : Tid) : Step s .silent (s.kill t)

/-- `pipealloc`. -/
def pipealloc (data : ℕ → UInt8) : State Tid :=
  ⟨⟨data, 0, 0, true, true⟩, none, fun _ => .outside, fun _ => false⟩

/-! ### What a step can do -/

/-- The steps by what they do, with what the source has tested on the way: the loops of
`pipewrite` and `piperead` branch by branch. -/
inductive Outcome (s : State Tid) : Act Tid → State Tid → Prop
  | enter (t : Tid) (p : Pc) (ht : s.pc t = .outside)
      (hp : (∃ n, p = .writeEnter n 0 ∧ s.pipe.writeopen = true) ∨
        ∃ n, p = .readEnter n ∧ s.pipe.readopen = true) :
      Outcome s .silent (s.goto t p)
  | acquire (t : Tid) (p : Pc) (hlock : s.lock = none) (ht : (s.pc t).acquired = some p) :
      Outcome s .silent { s.goto t p with lock := some t }
  | writeAbort (t : Tid) (n : ℤ) (i : ℕ) (ht : s.pc t = .writing n i)
      (hwhy : s.pipe.readopen = false ∨ s.killed t = true) :
      Outcome s (.ret t (-1)) (s.release t .outside)
  | writeSleep (t : Tid) (n : ℤ) (i : ℕ) (ht : s.pc t = .writing n i) (hfull : s.pipe.Full)
      (hopen : s.pipe.readopen = true) :
      Outcome s .silent (s.wakeReaders.release t (.writeAsleep n i))
  | writeStop (t : Tid) (n : ℤ) (i : ℕ) (ht : s.pc t = .writing n i) :
      Outcome s .silent (s.goto t (.writeDone n i))
  | put (t : Tid) (n : ℤ) (i : ℕ) (ch : UInt8) (ht : s.pc t = .writing n i)
      (hfull : ¬s.pipe.Full) :
      Outcome s (.put t ch) { s.goto t (.writing n (i + 1)) with pipe := s.pipe.put ch }
  | writeEnd (t : Tid) (n : ℤ) (i : ℕ) (ht : s.pc t = .writeDone n i) :
      Outcome s (.ret t i) (s.wakeReaders.release t .outside)
  | readAbort (t : Tid) (n : ℤ) (ht : s.pc t = .reading n) (hempty : s.pipe.Empty)
      (hkilled : s.killed t = true) :
      Outcome s (.ret t (-1)) (s.release t .outside)
  | readSleep (t : Tid) (n : ℤ) (ht : s.pc t = .reading n) (hempty : s.pipe.Empty)
      (hopen : s.pipe.writeopen = true) :
      Outcome s .silent (s.release t (.readAsleep n))
  | readStart (t : Tid) (n : ℤ) (ht : s.pc t = .reading n)
      (hready : ¬(s.pipe.Empty ∧ s.pipe.writeopen = true)) :
      Outcome s .silent (s.goto t (.copying n 0))
  | take (t : Tid) (n : ℤ) (i : ℕ) (ok : Bool) (ht : s.pc t = .copying n i)
      (hempty : ¬s.pipe.Empty) :
      Outcome s (.take t s.pipe.first ok)
        { s.goto t (if ok then .copying n (i + 1) else .readDone n i) with
          pipe := s.pipe.take }
  | readStop (t : Tid) (n : ℤ) (i : ℕ) (ht : s.pc t = .copying n i)
      (hstop : i < n → s.pipe.Empty) :
      Outcome s .silent (s.goto t (.readDone n i))
  | readEnd (t : Tid) (n : ℤ) (i : ℕ) (ht : s.pc t = .readDone n i) :
      Outcome s (.ret t i) (s.wakeWriters.release t .outside)
  | closeWrite (hlock : s.lock = none) (hin : ∀ t, (s.pc t).inWrite = false) :
      Outcome s .silent s.closeWrite
  | closeRead (hlock : s.lock = none) (hin : ∀ t, (s.pc t).inRead = false) :
      Outcome s .silent s.closeRead
  | kill (t : Tid) : Outcome s .silent (s.kill t)

variable {s s' : State Tid} {a : Act Tid}

/-- **Inversion of a step**: it is one of the outcomes, with what the source has tested before. -/
theorem Step.outcome (h : Step s a s') : Outcome s a s' := by
  cases h with
  | callWrite t n ht hopen => exact .enter t _ ht (.inl ⟨n, rfl, hopen⟩)
  | callRead t n ht hopen => exact .enter t _ ht (.inr ⟨n, rfl, hopen⟩)
  | acquire t p hlock ht => exact .acquire t p hlock ht
  | writeTurn t n i ch ht =>
    simp only [State.writeTurn]
    split
    · split
      · rename_i hwhy
        exact .writeAbort t n i ht hwhy
      · rename_i hopen
        rw [not_or, Bool.not_eq_false] at hopen
        split
        · rename_i hfull
          exact .writeSleep t n i ht hfull hopen.1
        · rename_i hfull
          cases ch with
          | none => exact .writeStop t n i ht
          | some ch => exact .put t n i ch ht hfull
    · exact .writeStop t n i ht
  | writeEnd t n i ht => exact .writeEnd t n i ht
  | readTurn t n ht =>
    simp only [State.readTurn]
    split
    · rename_i hwait
      split
      · rename_i hkilled
        exact .readAbort t n ht hwait.1 hkilled
      · exact .readSleep t n ht hwait.1 hwait.2
    · rename_i hready
      exact .readStart t n ht hready
  | copyTurn t n i ok ht =>
    simp only [State.copyTurn]
    split
    · split
      · rename_i hempty
        exact .readStop t n i ht fun _ => hempty
      · rename_i hempty
        exact .take t n i ok ht hempty
    · rename_i hlt
      exact .readStop t n i ht fun h => absurd h hlt
  | readEnd t n i ht => exact .readEnd t n i ht
  | closeWrite hlock hin => exact .closeWrite hlock hin
  | closeRead hlock hin => exact .closeRead hlock hin
  | kill t => exact .kill t

/-! ### What is seen of a run -/

/-- The byte that a step stores. -/
def Act.stored : Act Tid → Option UInt8
  | put _ ch => some ch
  | _ => none

/-- The byte that a step takes. -/
def Act.taken : Act Tid → Option UInt8
  | take _ ch _ => some ch
  | _ => none

/-- All bytes that were stored in the buffer. -/
def puts (as : List (Act Tid)) : List UInt8 := as.filterMap Act.stored

/-- All bytes that were taken from it. -/
def takes (as : List (Act Tid)) : List UInt8 := as.filterMap Act.taken

omit [DecidableEq Tid] in
/-- The last step adds the byte that it stores, if it does. -/
theorem puts_append_singleton (as : List (Act Tid)) (a : Act Tid) :
    puts (as ++ [a]) = puts as ++ a.stored.toList := by
  rw [puts, List.filterMap_append]
  cases h : a.stored <;> simp [h, puts]

omit [DecidableEq Tid] in
/-- The last step adds the byte that it takes, if it does. -/
theorem takes_append_singleton (as : List (Act Tid)) (a : Act Tid) :
    takes (as ++ [a]) = takes as ++ a.taken.toList := by
  rw [takes, List.filterMap_append]
  cases h : a.taken <;> simp [h, takes]

/-- The bytes that `t` has moved in its call, after a step, and whether `copyout` took
them. -/
def Act.movedBy (t : Tid) (m : List (UInt8 × Bool)) : Act Tid → List (UInt8 × Bool)
  | put u ch => if u = t then m ++ [(ch, true)] else m
  | take u ch ok => if u = t then m ++ [(ch, ok)] else m
  | ret u _ => if u = t then [] else m
  | silent => m

/-- The bytes that `t` has moved since its last call returned. -/
def moved (t : Tid) (as : List (Act Tid)) : List (UInt8 × Bool) :=
  as.foldl (Act.movedBy t) []

/-- What a thread has moved is brought up to date by each step. -/
theorem moved_append_singleton (t : Tid) (as : List (Act Tid)) (a : Act Tid) :
    moved t (as ++ [a]) = a.movedBy t (moved t as) := by
  simp [moved]

end OsLabs.Xv6Pipe
