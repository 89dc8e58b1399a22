import Mathlib.Data.Fintype.Card
import OsLabs.Transactions
import OsLabs.Transitions

/-!
# The Log of the xv6 File System

`xv6/kernel/log.c`: `begin_op`, `end_op`, `log_write`, `commit` and the recovery after a
crash. Several system calls share one transaction, which is written to the log area of
the disk and then copied home.

The buffer cache below it is modelled by what its users see: `cache` has the contents of
the blocks that are in some buffer, `pins` counts the references that `bpin` has added. A
buffer with a pin is never recycled; that one in use is not either is left out, so that
the steps below include all those of `bio.c`. A block is written to the disk as a whole.

`Step` is a move of the system: a call by some thread up to the release of `log.lock`,
one turn of a loop of `commit` or of the recovery (each writes one block), the recycling
of a buffer, the end of a sleep by `kill`, or a crash, which leaves only the disk. A call
that panics is no step.

The system calls do what the comment of `log_write` asks of them: they change a block only
between `begin_op` and `end_op`, and pass it to `log_write` before they release its buffer,
so that `Step.store` is one move. A block of the log itself they leave alone. `writei` does
not do so when `either_copyin` fails after a part of the data has been copied: it releases the
changed buffer without `log_write`, and what follows is not among the runs of this model.
-/

namespace OsLabs.Xv6Log

/-! ### Blocks and the header of the log -/

/-- The blocks that a system call may write. -/
def MAXOPBLOCKS : ℕ := 10

/-- The blocks that the log may hold, by the reckoning of `param.h`. -/
def LOGSIZE : ℕ := MAXOPBLOCKS * 3

/-- The number of a block of the disk. -/
abbrev BlockNo := BitVec 32

/-- The `BSIZE` bytes of a block, as words. -/
abbrev Block := Fin 256 → BitVec 32

/-- The contents of all blocks. -/
abbrev Disk := BlockNo → Block

/-- `sb->logstart` and `sb->nlog`: where the log is on the disk. -/
structure Layout where
  start : BlockNo
  size : ℕ
  size_pos : 0 < size

/-- The superblock that `mkfs` writes: `nlog = LOGSIZE` blocks after the boot block and the
superblock. -/
def mkfs : Layout := ⟨2, LOGSIZE, by decide⟩

namespace Layout

variable (L : Layout)

/-- The log block of entry `tail`. -/
def logBlock (tail : ℕ) : BlockNo := L.start + BitVec.ofNat 32 (tail + 1)

/-- The block is the header or a block of the log. -/
def InLog (b : BlockNo) : Prop := (b - L.start).toNat < L.size

instance (b : BlockNo) : Decidable (L.InLog b) :=
  inferInstanceAs (Decidable (_ < _))

end Layout

/-- `read_head`: the numbers `lh.block[0]` to `lh.block[lh.n - 1]`. With more than
`LOGSIZE` of them the copy leaves the array. -/
def readHead (buf : Block) : Option (List BlockNo) :=
  let n := (buf 0).toInt
  if n ≤ LOGSIZE then some ((List.range n.toNat).map fun i => buf (Fin.ofNat 256 (i + 1)))
  else none

/-- `write_head`: the new contents of the header block. -/
def writeHead (lh : List BlockNo) (buf : Block) : Block := fun i =>
  if i = 0 then BitVec.ofNat 32 lh.length else lh[i.val - 1]?.getD (buf i)

/-! ### The state -/

/-- Where a thread is. For the system call in progress, `blocks` are the blocks it has
passed to `log_write`. -/
inductive Thread where
  | outside
  /-- Woken in `begin_op`, about to look again. -/
  | trying
  /-- In `sleep(&log, &log.lock)`. -/
  | asleep
  | inside (blocks : List BlockNo)
  /-- In `end_op`, with `do_commit`. -/
  | committing
deriving DecidableEq

/-- A system call is in progress. -/
def Thread.isInside : Thread → Bool
  | inside _ => true
  | _ => false

/-- What the thread that commits, or the one that boots the system, does next. -/
inductive Phase where
  /-- After a crash: `read_head`. -/
  | boot
  /-- Neither. -/
  | running
  /-- Turn `tail` of `write_log`. -/
  | writeLog (tail : ℕ)
  /-- Turn `tail` of `install_trans(recovering)`. -/
  | install (recovering : Bool) (tail : ℕ)
  /-- `commit` has returned. -/
  | committed
deriving DecidableEq

/-- In `recover_from_log`; no system call has started. -/
def Phase.recovering : Phase → Bool
  | boot => true
  | install r _ => r
  | _ => false

/-- The disk, the buffer cache, `log` and the threads. `lh` is `log.lh` up to `log.lh.n`. -/
structure State (Tid : Type) where
  disk : Disk
  cache : BlockNo → Option Block
  pins : BlockNo → ℕ
  lh : List BlockNo
  outstanding : ℕ
  committing : Bool
  thread : Tid → Thread
  phase : Phase

namespace State

variable {Tid : Type} (s : State Tid)

/-- What `bread` finds in a block. -/
def view (b : BlockNo) : Block := (s.cache b).getD (s.disk b)

/-- `bread`: the block is in a buffer. -/
def bread (b : BlockNo) : State Tid :=
  { s with cache := Function.update s.cache b (some (s.view b)) }

/-- A change of the data of a buffer. -/
def modify (b : BlockNo) (data : Block) : State Tid :=
  { s with cache := Function.update s.cache b (some data) }

/-- `bwrite`. -/
def bwrite (b : BlockNo) : State Tid :=
  { s with disk := Function.update s.disk b (s.view b) }

/-- `bget` recycles the buffer of a block. -/
def evict (b : BlockNo) : State Tid :=
  { s with cache := Function.update s.cache b none }

/-- `bpin` of the buffer of a block. -/
def bpin (b : BlockNo) : State Tid :=
  { s with pins := Function.update s.pins b (s.pins b + 1) }

/-- `bunpin` of the buffer of a block. -/
def bunpin (b : BlockNo) : State Tid :=
  { s with pins := Function.update s.pins b (s.pins b - 1) }

/-- `wakeup(&log)`. -/
def wakeup : State Tid :=
  { s with thread := fun t => if s.thread t = .asleep then .trying else s.thread t }

/-- Copy the data of one buffer to another and write that one. -/
def copyBlock (dst src : BlockNo) : State Tid :=
  let s := (s.bread dst).bread src
  (s.modify dst (s.view src)).bwrite dst

/-- `write_head()`. -/
def writeHeader (L : Layout) : State Tid :=
  let s := s.bread L.start
  (s.modify L.start (writeHead s.lh (s.view L.start))).bwrite L.start

/-- One turn of `write_log`, for the block `b = log.lh.block[tail]`. -/
def writeLogTurn (L : Layout) (tail : ℕ) (b : BlockNo) : State Tid :=
  s.copyBlock (L.logBlock tail) b

/-- One turn of `install_trans`, for the block `b = log.lh.block[tail]`. -/
def installTurn (L : Layout) (recovering : Bool) (tail : ℕ) (b : BlockNo) : State Tid :=
  let s := s.copyBlock b (L.logBlock tail)
  if recovering then s else s.bunpin b

/-- `log_write`. It panics when the log is full, and outside of a transaction. -/
def logWrite (L : Layout) (b : BlockNo) : Option (State Tid) :=
  if LOGSIZE ≤ s.lh.length ∨ L.size ≤ s.lh.length + 1 then none
  else if s.outstanding < 1 then none
  else if b ∈ s.lh then some s
  else some { s.bpin b with lh := s.lh ++ [b] }

/-- `begin_op` need not wait. -/
def Admits : Prop :=
  s.committing = false ∧ s.lh.length + (s.outstanding + 1) * MAXOPBLOCKS ≤ LOGSIZE

instance : Decidable s.Admits := inferInstanceAs (Decidable (_ ∧ _))

variable [DecidableEq Tid]

/-- Thread `t` continues at `p`. -/
def goto (t : Tid) (p : Thread) : State Tid :=
  { s with thread := Function.update s.thread t p }

/-- `begin_op` up to the release of `log.lock`, by `sleep` or at its end. -/
def beginOp (t : Tid) : State Tid :=
  if s.Admits then { s.goto t (.inside []) with outstanding := s.outstanding + 1 }
  else s.goto t .asleep

/-- `end_op` up to the first release of `log.lock`. It panics during a commit. -/
def endOp (t : Tid) : Option (State Tid) :=
  let s := { s with outstanding := s.outstanding - 1 }
  if s.committing then none
  else if s.outstanding = 0 then
    some { s.goto t .committing with committing := true, phase := .writeLog 0 }
  else some (s.goto t .outside).wakeup

/-- The rest of `end_op` after `commit()`. -/
def endCommit (t : Tid) : State Tid :=
  ({ s.goto t .outside with committing := false, phase := .running }).wakeup

/-- What is left after a crash, when the system boots. -/
def crash : State Tid :=
  ⟨s.disk, fun _ => none, fun _ => 0, [], 0, false, fun _ => .outside, .boot⟩

end State

/-! ### Steps -/

variable {Tid : Type} [DecidableEq Tid]

/-- A move of the system and what can be seen of it: the start of a system call that
`begin_op` admits, a write of a block by it, its end, the write of the header that commits
the transaction, and a crash. -/
inductive Step (L : Layout) (s : State Tid) :
    Action Tid BlockNo Block → State Tid → Prop
  | beginOp (t : Tid) (ht : s.thread t = .outside ∨ s.thread t = .trying)
      (hboot : s.phase.recovering = false) :
      Step L s (if s.Admits then .event (.begin t) else .silent) (s.beginOp t)
  /-- The thread gets the block, changes its data and calls `log_write`. Blocks of the log
  belong to no file. -/
  | store (t : Tid) (blocks : List BlockNo) (b : BlockNo) (data : Block) (s' : State Tid)
      (ht : s.thread t = .inside blocks) (hb : ¬L.InLog b)
      (hs' : (s.modify b data).logWrite L b = some s') :
      Step L s (.event (.store t b data)) (s'.goto t (.inside (blocks.insert b)))
  | endOp (t : Tid) (blocks : List BlockNo) (s' : State Tid)
      (ht : s.thread t = .inside blocks) (hs' : s.endOp t = some s') :
      Step L s (.event (.finish t)) s'
  | writeLog (tail : ℕ) (b : BlockNo) (hphase : s.phase = .writeLog tail)
      (hb : s.lh[tail]? = some b) :
      Step L s .silent { s.writeLogTurn L tail b with phase := .writeLog (tail + 1) }
  | writeHead (hphase : s.phase = .writeLog s.lh.length) (hpos : s.lh ≠ []) :
      Step L s .commit { s.writeHeader L with phase := .install false 0 }
  /-- `commit` finds that there is nothing to commit. -/
  | commitNone (hphase : s.phase = .writeLog 0) (hnil : s.lh = []) :
      Step L s .commit { s with phase := .committed }
  | install (recovering : Bool) (tail : ℕ) (b : BlockNo)
      (hphase : s.phase = .install recovering tail) (hb : s.lh[tail]? = some b) :
      Step L s .silent { s.installTurn L recovering tail b with
        phase := .install recovering (tail + 1) }
  /-- `log.lh.n = 0; write_head()` in `commit` and in `recover_from_log`. -/
  | clear (recovering : Bool) (hphase : s.phase = .install recovering s.lh.length) :
      Step L s .silent { State.writeHeader { s with lh := [] } L with
        phase := if recovering then .running else .committed }
  /-- `kill` wakes a thread that sleeps in `begin_op`, which looks at the log again. -/
  | kill (t : Tid) (ht : s.thread t = .asleep) : Step L s .silent (s.goto t .trying)
  | endCommit (t : Tid) (hphase : s.phase = .committed) (ht : s.thread t = .committing) :
      Step L s .silent (s.endCommit t)
  | readHead (lh : List BlockNo) (hphase : s.phase = .boot)
      (hlh : readHead (s.view L.start) = some lh) :
      Step L s .silent { s.bread L.start with lh, phase := .install true 0 }
  | bread (b : BlockNo) : Step L s .silent (s.bread b)
  | evict (b : BlockNo) (hpins : s.pins b = 0) : Step L s .silent (s.evict b)
  | crash : Step L s .crash s.crash

/-- A system that boots from a disk. -/
def booting (d : Disk) : State Tid :=
  ⟨d, fun _ => none, fun _ => 0, [], 0, false, fun _ => .outside, .boot⟩

end OsLabs.Xv6Log
