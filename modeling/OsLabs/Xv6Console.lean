import OsLabs.RingBuffer
import OsLabs.Transitions

/-!
# The Console of xv6

`consoleintr` and `consoleread` of `xv6/kernel/console.c`: what is typed is edited in a line
and handed to the readers when the line is complete. One ring buffer of 128 bytes holds both,
between the 32-bit counters `r`, `w` and `e`, which wrap.

`Step` is a section under `cons.lock`: an interrupt, or what a reader does from the taking of
the lock to `sleep` or to the end. The results of `either_copyout` are left open, as is when a
process is killed; `sleep` releases the lock and sleeps at once. `procdump` is left out.

`Typed` is the line discipline without the ring buffer: the completed lines, the line that is
edited, and how much of the first has been taken.
-/

namespace OsLabs.Xv6Console

/-- The size of the ring buffer. -/
def INPUT_BUF_SIZE : ℕ := 128

/-- `C(x)`: Control-x. -/
def ctrl (x : Char) : UInt8 := UInt8.ofNat (x.toNat - '@'.toNat)

/-- The byte `'\n'`, which completes a line. -/
def newline : UInt8 := 10

/-- What `consputc(BACKSPACE)` sends. -/
def backspace : List UInt8 := [8, 32, 8]

/-- `cons` but for its lock. -/
structure Cons where
  buf : ℕ → UInt8
  r : BitVec 32
  w : BitVec 32
  e : BitVec 32

namespace Cons

variable (s : Cons)

/-- The completed lines. -/
def ready : List UInt8 := ringContents INPUT_BUF_SIZE s.buf s.r s.w

/-- The line that is edited. -/
def line : List UInt8 := ringContents INPUT_BUF_SIZE s.buf s.w s.e

/-- The loop of `^U`, with the bytes that it echoes. It ends at `w` at the latest. -/
def kill : ℕ → Cons → Cons × List UInt8
  | 0, s => (s, [])
  | fuel + 1, s =>
    if s.e ≠ s.w ∧ s.buf ((s.e - 1).toNat % INPUT_BUF_SIZE) ≠ newline then
      let (s', echo) := kill fuel { s with e := s.e - 1 }
      (s', backspace ++ echo)
    else (s, [])

/-- `consoleintr`: the new state, the bytes that are echoed, and whether the readers are woken
up. -/
def consoleintr (c : UInt8) : Cons × List UInt8 × Bool :=
  if c = ctrl 'P' then (s, [], false)
  else if c = ctrl 'U' then
    let (s', echo) := kill (ringLength s.w s.e) s
    (s', echo, false)
  else if c = ctrl 'H' ∨ c = 0x7f then
    if s.e ≠ s.w then ({ s with e := s.e - 1 }, backspace, false) else (s, [], false)
  else if c ≠ 0 ∧ (s.e - s.r).toNat < INPUT_BUF_SIZE then
    let c := if c = 13 then newline else c
    let s := { s with
      buf := Function.update s.buf (s.e.toNat % INPUT_BUF_SIZE) c
      e := s.e + 1 }
    if c = newline ∨ c = ctrl 'D' ∨ (s.e - s.r).toNat = INPUT_BUF_SIZE then
      ({ s with w := s.e }, [c], true)
    else (s, [c], false)
  else (s, [], false)

/-- How a section of `consoleread` ends. -/
inductive ReadEnd where
  /-- In `sleep(&cons.r, &cons.lock)`, with `n` bytes to go. -/
  | sleeps (n : ℕ)
  | returns (v : ℤ)
deriving DecidableEq

/-- The loop of `consoleread` with `n` of `target` bytes to go, up to the release of the lock:
the new state, the bytes taken and whether each went to the caller, and the end. `ok n` is
the result of `either_copyout` with `n` bytes to go. -/
def readLoop (target : ℕ) (killed : Bool) (ok : ℕ → Bool) :
    ℕ → Cons → Cons × List (UInt8 × Bool) × ReadEnd
  | 0, s => (s, [], .returns target)
  | n + 1, s =>
    if s.r = s.w then
      (s, [], if killed then .returns (-1) else .sleeps (n + 1))
    else
      let c := s.buf (s.r.toNat % INPUT_BUF_SIZE)
      let s' := { s with r := s.r + 1 }
      if c = ctrl 'D' then
        -- Save ^D for next time if the caller has got something.
        if n + 1 < target then ({ s' with r := s'.r - 1 }, [], .returns (target - (n + 1)))
        else (s', [(c, false)], .returns (target - (n + 1)))
      else if ok (n + 1) = false then (s', [(c, false)], .returns (target - (n + 1)))
      else if c = newline then (s', [(c, true)], .returns (target - n))
      else
        let (s'', taken, stop) := readLoop target killed ok n s'
        (s'', (c, true) :: taken, stop)

end Cons

/-! ### Steps -/

/-- Where a reader is in a call of `consoleread` for `target` bytes, with `n` to go. -/
inductive Pc where
  | outside
  /-- About to take the lock. -/
  | enters (n target : ℕ)
  /-- In `sleep(&cons.r, &cons.lock)`. -/
  | asleep (n target : ℕ)
deriving DecidableEq

/-- The console and its readers, with the flags that `kill` sets. -/
structure State (Tid : Type) where
  cons : Cons
  pc : Tid → Pc
  killed : Tid → Bool

/-- What can be seen of a step. -/
inductive Act (Tid : Type) where
  | intr (c : UInt8)
  | call (t : Tid) (n : ℕ)
  | read (t : Tid) (taken : List (UInt8 × Bool)) (stop : Cons.ReadEnd)
  | kill (t : Tid)

/-- What `wakeup(&cons.r)` does to a reader. -/
def Pc.wake : Pc → Pc
  | asleep n target => enters n target
  | p => p

/-- Where a reader is after a section of `consoleread`. -/
def Pc.after (target : ℕ) : Cons.ReadEnd → Pc
  | .sleeps n => asleep n target
  | .returns _ => outside

variable {Tid : Type} [DecidableEq Tid]

/-- A section under `cons.lock`, the start of a call, or a `kill`. -/
inductive Step (s : State Tid) : Act Tid → State Tid → Prop
  | intr (c : UInt8) : Step s (.intr c)
      { s with
        cons := (s.cons.consoleintr c).1
        pc := fun t => if (s.cons.consoleintr c).2.2 then (s.pc t).wake else s.pc t }
  /-- A call with a negative count is like one with 0. -/
  | call (t : Tid) (n : ℤ) (ht : s.pc t = .outside) : Step s (.call t n.toNat)
      { s with pc := Function.update s.pc t (.enters n.toNat n.toNat) }
  | read (t : Tid) (n target : ℕ) (ok : ℕ → Bool) (ht : s.pc t = .enters n target) :
      Step s (.read t (s.cons.readLoop target (s.killed t) ok n).2.1
        (s.cons.readLoop target (s.killed t) ok n).2.2)
        { s with
          cons := (s.cons.readLoop target (s.killed t) ok n).1
          pc := Function.update s.pc t
            (.after target (s.cons.readLoop target (s.killed t) ok n).2.2) }
  /-- `kill`, which also wakes the process. -/
  | kill (t : Tid) : Step s (.kill t)
      { s with
        pc := Function.update s.pc t (s.pc t).wake
        killed := Function.update s.killed t true }

/-- The state at the start. -/
def init (buf : ℕ → UInt8) : State Tid := ⟨⟨buf, 0, 0, 0⟩, fun _ => .outside, fun _ => false⟩

/-! ### The line discipline -/

/-- What has been typed: the completed lines, the line that is edited, and how many bytes have
been taken from the first. -/
structure Typed where
  completed : List UInt8
  line : List UInt8
  taken : ℕ

/-- What a key does. -/
def Typed.type (d : Typed) (c : UInt8) : Typed :=
  if c = ctrl 'P' then d
  else if c = ctrl 'U' then { d with line := [] }
  else if c = ctrl 'H' ∨ c = 0x7f then { d with line := d.line.dropLast }
  else if c ≠ 0 ∧ d.completed.length - d.taken + d.line.length < INPUT_BUF_SIZE then
    let c := if c = 13 then newline else c
    let line := d.line ++ [c]
    if c = newline ∨ c = ctrl 'D' ∨
        d.completed.length - d.taken + line.length = INPUT_BUF_SIZE then
      { d with completed := d.completed ++ line, line := [] }
    else { d with line }
  else d

/-- What the events make of it. -/
def replay (as : List (Act Tid)) : Typed :=
  as.foldl (fun d a => match a with
    | .intr c => d.type c
    | .read _ taken _ => { d with taken := d.taken + taken.length }
    | .call _ _ | .kill _ => d) ⟨[], [], 0⟩

/-- The bytes that the readers have taken. -/
def takes (as : List (Act Tid)) : List UInt8 :=
  as.flatMap fun a => match a with
    | .read _ taken _ => taken.map Prod.fst
    | _ => []

end OsLabs.Xv6Console
