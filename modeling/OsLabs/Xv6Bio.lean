import Mathlib.Data.List.FinRange
import OsLabs.DoublyLinked
import OsLabs.Transitions

/-!
# The Buffer Cache of xv6

`xv6/kernel/bio.c`: `binit`, `bget`, `bread`, `bwrite`, `brelse`, `bpin` and `bunpin`, called
by any number of users for any blocks of any devices, over `n` buffers in a list that is
sorted by the time of their last use.

A user is one use of one buffer, from `bread` to `brelse`; who has several buffers is several
users. `Step` is a move of one user up to the release of `bcache.lock` or of the spinlock in
the sleep lock. The disk reads and writes a block as a whole. A user changes, writes, pins and
unpins a buffer under its lock, and a `bunpin` undoes a `bpin`, as in `log.c`; nothing else is
asked of the users by the steps.

What a user owes to the cache is read off the events: `Disciplined k` says that whenever a
buffer of block `k` was released, the block had been written by `bwrite` since its last change,
or it was pinned. `log_write` pins the buffer that has been changed, and `write_log`,
`write_head` and `install_trans` write theirs. `writei` is not disciplined: it releases the
buffer unwritten when `either_copyin` fails after a part of the data has been copied.
-/

namespace OsLabs.Xv6Bio

/-! ### The cache -/

/-- `dev` and `blockno`. -/
abbrev Key := BitVec 32 × BitVec 32

/-- `struct buf` but for its lock and its links. -/
structure Buf (Block : Type) where
  valid : Bool
  key : Key
  refcnt : ℕ
  data : Block

/-- Where a user is. `k` are the arguments of its call of `bread`. -/
inductive User (n : ℕ) where
  | outside
  /-- In `acquiresleep`, called by `bget`. -/
  | waiting (b : Fin n) (k : Key)
  /-- In `bread` after `bget`. -/
  | locked (b : Fin n) (k : Key)
  /-- After `bread`. -/
  | inUse (b : Fin n) (k : Key)
  /-- In `brelse` after `releasesleep`. -/
  | releasing (b : Fin n)
deriving DecidableEq

namespace User

variable {n : ℕ}

/-- The buffer that counts the user in `refcnt`. -/
@[simp] def ref : User n → Option (Fin n)
  | outside => none
  | waiting b _ | locked b _ | inUse b _ | releasing b => some b

/-- The buffer of which the user has the lock. -/
@[simp] def holds : User n → Option (Fin n)
  | locked b _ | inUse b _ => some b
  | _ => none

/-- The buffer that the user has got for its block. -/
@[simp] def got : User n → Option (Fin n × Key)
  | waiting b k | locked b k | inUse b k => some (b, k)
  | _ => none

end User

/-- The disk, the buffers with their links and locks, and the users. `pins` counts the
references that `bpin` has added. -/
structure State (n : ℕ) (Tid Block : Type) where
  disk : Key → Block
  links : Links (Fin n)
  buf : Fin n → Buf Block
  lock : Fin n → Option Tid
  pins : Fin n → ℕ
  user : Tid → User n

/-- What can be seen of a step: what a user does to a block, the release of the block's
buffer, and that a buffer has lost its last reference. -/
inductive Event (n : ℕ) (Block : Type) where
  | store (k : Key) (data : Block)
  | write (k : Key)
  | pin (k : Key)
  | unpin (k : Key)
  | release (k : Key)
  | idle (b : Fin n)
  | silent

/-- The links that `binit` makes. -/
def binit (n : ℕ) : Links (Fin n) :=
  (List.finRange n).foldl Links.insertFront ⟨fun _ => none, fun _ => none⟩

namespace State

variable {n : ℕ} {Tid Block : Type} (s : State n Tid Block)

/-- Replace the contents of one buffer. -/
def setBuf (b : Fin n) (f : Buf Block) : State n Tid Block :=
  { s with buf := Function.update s.buf b f }

/-- The first loop of `bget`. -/
def findKey (k : Key) : Option (Fin n) :=
  scan s.links.next (fun b => (s.buf b).key == k) (n + 1) (s.links.next none)

/-- The second loop of `bget`. -/
def findUnused : Option (Fin n) :=
  scan s.links.prev (fun b => (s.buf b).refcnt == 0) (n + 1) (s.links.prev none)

/-- `bget` up to the release of `bcache.lock`. It panics when there is no buffer. -/
def bget (k : Key) : Option (State n Tid Block × Fin n) :=
  match s.findKey k with
  | some b => some (s.setBuf b { s.buf b with refcnt := (s.buf b).refcnt + 1 }, b)
  | none =>
    match s.findUnused with
    | some b => some (s.setBuf b { s.buf b with key := k, valid := false, refcnt := 1 }, b)
    | none => none

/-- `bread` after `bget`. -/
def bread (b : Fin n) : State n Tid Block :=
  if (s.buf b).valid then s
  else s.setBuf b { s.buf b with data := s.disk (s.buf b).key, valid := true }

/-- A change of the data of a buffer. -/
def modify (b : Fin n) (data : Block) : State n Tid Block :=
  s.setBuf b { s.buf b with data := data }

/-- `bpin`: one more reference to the buffer, which no user has. -/
def bpin (b : Fin n) : State n Tid Block :=
  { s.setBuf b { s.buf b with refcnt := (s.buf b).refcnt + 1 } with
    pins := Function.update s.pins b (s.pins b + 1) }

/-- `bunpin`: one such reference less. -/
def bunpin (b : Fin n) : State n Tid Block :=
  { s.setBuf b { s.buf b with refcnt := (s.buf b).refcnt - 1 } with
    pins := Function.update s.pins b (s.pins b - 1) }

/-- `brelse` after `releasesleep`. -/
def brelse (b : Fin n) : State n Tid Block :=
  let s := s.setBuf b { s.buf b with refcnt := (s.buf b).refcnt - 1 }
  if (s.buf b).refcnt = 0 then { s with links := (s.links.unlink b).insertFront b } else s

variable [DecidableEq Tid]

/-- User `t` continues at `u`. -/
def goto (t : Tid) (u : User n) : State n Tid Block :=
  { s with user := Function.update s.user t u }

/-- `acquiresleep` once the lock is free. -/
def acquiresleep (t : Tid) (b : Fin n) : State n Tid Block :=
  { s with lock := Function.update s.lock b (some t) }

/-- `brelse` up to the end of `releasesleep`. It panics without the lock. -/
def releasesleep (t : Tid) (b : Fin n) : Option (State n Tid Block) :=
  if s.lock b = some t then some { s with lock := Function.update s.lock b none } else none

/-- `bwrite`. It panics without the lock. -/
def bwrite (t : Tid) (b : Fin n) : Option (State n Tid Block) :=
  if s.lock b = some t then
    some { s with disk := Function.update s.disk (s.buf b).key (s.buf b).data }
  else none

end State

variable {n : ℕ} {Tid Block : Type} [DecidableEq Tid]

/-- A move of a user, with the event that it leaves in the history. What the users owe to one
another beyond this is `Disciplined`. -/
inductive Step (s : State n Tid Block) : Event n Block → State n Tid Block → Prop
  | bget (t : Tid) (k : Key) (b : Fin n) (s' : State n Tid Block)
      (ht : s.user t = .outside) (hs' : s.bget k = some (s', b)) :
      Step s .silent (s'.goto t (.waiting b k))
  | acquiresleep (t : Tid) (b : Fin n) (k : Key) (ht : s.user t = .waiting b k)
      (hfree : s.lock b = none) : Step s .silent ((s.acquiresleep t b).goto t (.locked b k))
  | bread (t : Tid) (b : Fin n) (k : Key) (ht : s.user t = .locked b k) :
      Step s .silent ((s.bread b).goto t (.inUse b k))
  | store (t : Tid) (b : Fin n) (k : Key) (data : Block) (ht : s.user t = .inUse b k) :
      Step s (.store k data) (s.modify b data)
  | bwrite (t : Tid) (b : Fin n) (k : Key) (s' : State n Tid Block)
      (ht : s.user t = .inUse b k) (hs' : s.bwrite t b = some s') : Step s (.write k) s'
  | bpin (t : Tid) (b : Fin n) (k : Key) (ht : s.user t = .inUse b k) :
      Step s (.pin k) (s.bpin b)
  /-- `bunpin` undoes a `bpin`. -/
  | bunpin (t : Tid) (b : Fin n) (k : Key) (ht : s.user t = .inUse b k)
      (hpins : s.pins b ≠ 0) : Step s (.unpin k) (s.bunpin b)
  | releasesleep (t : Tid) (b : Fin n) (k : Key) (s' : State n Tid Block)
      (ht : s.user t = .inUse b k) (hs' : s.releasesleep t b = some s') :
      Step s (.release k) (s'.goto t (.releasing b))
  | brelse (t : Tid) (b : Fin n) (ht : s.user t = .releasing b) :
      Step s (if (s.buf b).refcnt = 1 then .idle b else .silent)
        ((s.brelse b).goto t .outside)

/-- The state after `binit`. -/
def init (disk : Key → Block) (zero : Block) : State n Tid Block :=
  ⟨disk, binit n, fun _ => ⟨false, (0, 0), 0, zero⟩, fun _ => none, fun _ => 0,
    fun _ => .outside⟩

/-! ### What the users have done -/

/-- What an event does to the contents of the blocks. -/
def Event.apply (M : Key → Block) : Event n Block → Key → Block
  | store k data => Function.update M k data
  | _ => M

/-- The contents of the blocks after the stores: those of the disk at first, and then what was
stored last. -/
def contents (disk : Key → Block) (as : List (Event n Block)) : Key → Block :=
  as.foldl Event.apply disk

/-- Whether block `k` has been changed since it was written last, after an event. -/
def Event.changes (k : Key) (changed : Bool) : Event n Block → Bool
  | store k' _ => k' == k || changed
  | write k' => k' != k && changed
  | _ => changed

/-- Block `k` has been changed since the last `bwrite` of it. -/
def changed (k : Key) (as : List (Event n Block)) : Bool :=
  as.foldl (Event.changes k) false

/-- The pins of block `k` after an event. -/
def Event.addPins (k : Key) (pins : ℕ) : Event n Block → ℕ
  | pin k' => if k' = k then pins + 1 else pins
  | unpin k' => if k' = k then pins - 1 else pins
  | _ => pins

/-- How often block `k` has been pinned and not unpinned. -/
def pinned (k : Key) (as : List (Event n Block)) : ℕ :=
  as.foldl (Event.addPins k) 0

/-- The event is the release of a buffer of block `k`. -/
def Event.releases (k : Key) : Event n Block → Bool
  | release k' => k' == k
  | _ => false

/-- Whenever a buffer of block `k` was released, a change of the block had been written, or
the block was pinned. -/
def Disciplined (k : Key) (as : List (Event n Block)) : Prop :=
  ∀ as₁ as₂, as = as₁ ++ .release k :: as₂ → changed k as₁ = false ∨ pinned k as₁ ≠ 0

section

variable {as : List (Event n Block)} {a : Event n Block} {k : Key}

/-- The last event acts on the contents that those before it have left. -/
theorem contents_snoc (disk : Key → Block) :
    contents disk (as ++ [a]) = a.apply (contents disk as) := by
  simp [contents, List.foldl_append]

/-- The last event decides whether the block is still as it was written. -/
theorem changed_snoc : changed k (as ++ [a]) = a.changes k (changed k as) := by
  simp [changed, List.foldl_append]

/-- The last event acts on the pins that those before it have left. -/
theorem pinned_snoc : pinned k (as ++ [a]) = a.addPins k (pinned k as) := by
  simp [pinned, List.foldl_append]

/-- The check agrees with equality, of which the data need no decision. -/
theorem Event.releases_iff : a.releases k = true ↔ a = .release k := by
  cases a <;> simp [Event.releases]

/-- The discipline can be checked release by release. -/
theorem disciplined_iff : Disciplined k as ↔ ∀ i < as.length, as[i]?.any (Event.releases k) →
    changed k (as.take i) = false ∨ pinned k (as.take i) ≠ 0 := by
  constructor
  · intro h i hi hany
    rw [List.getElem?_eq_getElem hi, Option.any_some, Event.releases_iff] at hany
    refine h _ (as.drop (i + 1)) ?_
    rw [← hany, ← List.drop_eq_getElem_cons hi, List.take_append_drop]
  · rintro h as₁ as₂ rfl
    simpa [Event.releases] using h as₁.length (by simp)

instance : Decidable (Disciplined k as) := decidable_of_iff _ disciplined_iff.symm

/-- The discipline is kept to the end if it is kept up to the last event, and this one is not
the release of the block while a change of it is neither written nor pinned. -/
theorem disciplined_snoc : Disciplined k (as ++ [a]) ↔
    Disciplined k as ∧ (a = .release k → changed k as = false ∨ pinned k as ≠ 0) := by
  constructor
  · intro h
    exact ⟨fun as₁ as₂ heq => h as₁ (as₂ ++ [a]) (by rw [heq]; simp),
      fun ha => h as [] (by rw [ha])⟩
  · rintro ⟨h, ha⟩ as₁ as₂ heq
    rcases List.eq_nil_or_concat as₂ with rfl | ⟨cs, c, rfl⟩
    · obtain ⟨rfl, hone⟩ := List.append_inj' heq rfl
      exact ha (List.cons.inj hone).1
    · rw [List.concat_eq_append, ← List.cons_append, ← List.append_assoc] at heq
      exact h as₁ cs (List.append_inj' heq rfl).1

end

section

variable {s : State n Tid Block} {t : Tid} {b c : Fin n}

/-! ### What an update of a state leaves alone -/

section

omit [DecidableEq Tid]

/-- An update of a buffer is seen in that buffer. -/
@[simp] theorem setBuf_buf_self (f : Buf Block) : (s.setBuf b f).buf b = f :=
  Function.update_self ..

/-- An update of a buffer is not seen in another. -/
theorem setBuf_buf_of_ne (f : Buf Block) (h : c ≠ b) : (s.setBuf b f).buf c = s.buf c :=
  Function.update_of_ne h ..

/-- A change of the count is seen by `bget` and `brelse` only. -/
theorem setBuf_refcnt (m : ℕ) (c : Fin n) :
    ((s.setBuf b { s.buf b with refcnt := m }).buf c).valid = (s.buf c).valid ∧
      ((s.setBuf b { s.buf b with refcnt := m }).buf c).key = (s.buf c).key ∧
      ((s.setBuf b { s.buf b with refcnt := m }).buf c).data = (s.buf c).data := by
  by_cases hcb : c = b
  · simp [hcb]
  · simp [setBuf_buf_of_ne _ hcb]

/-- An update of a buffer is not seen on the disk. -/
@[simp] theorem setBuf_disk (f : Buf Block) : (s.setBuf b f).disk = s.disk := rfl

/-- An update of a buffer is not seen in the sleep locks. -/
@[simp] theorem setBuf_lock (f : Buf Block) : (s.setBuf b f).lock = s.lock := rfl

/-- An update of a buffer is not seen in the pins. -/
@[simp] theorem setBuf_pins (f : Buf Block) : (s.setBuf b f).pins = s.pins := rfl

/-- An update of a buffer is not seen by the users. -/
@[simp] theorem setBuf_user (f : Buf Block) : (s.setBuf b f).user = s.user := rfl

/-- `brelse` changes the count, and the links if it is then 0. -/
theorem brelse_eq : s.brelse b =
    { s.setBuf b { s.buf b with refcnt := (s.buf b).refcnt - 1 } with
      links := if (s.buf b).refcnt - 1 = 0 then (s.links.unlink b).insertFront b
        else s.links } := by
  simp only [State.brelse, setBuf_buf_self]
  split <;> rfl

end

/-- A user that continues at `v` is at `v`. -/
@[simp] theorem goto_user_self (v : User n) : (s.goto t v).user t = v := Function.update_self ..

/-- A move of a user is not seen on the disk. -/
@[simp] theorem goto_disk (v : User n) : (s.goto t v).disk = s.disk := rfl

/-- A move of a user is not seen in the buffers. -/
@[simp] theorem goto_buf (v : User n) : (s.goto t v).buf = s.buf := rfl

/-- A move of a user is not seen in the sleep locks. -/
@[simp] theorem goto_lock (v : User n) : (s.goto t v).lock = s.lock := rfl

/-- A move of a user is not seen in the pins. -/
@[simp] theorem goto_pins (v : User n) : (s.goto t v).pins = s.pins := rfl

end

end OsLabs.Xv6Bio
