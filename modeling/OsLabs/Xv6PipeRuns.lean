import OsLabs.Xv6PipeSleepers

/-!
# The Runs of a Pipe

What the readers and writers of a pipe of xv6 can rely on, in every run from `pipealloc`:
any number of threads, any interleaving of their turns, kills and closes at any time, and
counters that may wrap.

## Main results

* `fifo`: the bytes written are the bytes read followed by those in the buffer.
* `returns`: what a call returns is the number of bytes that it moved, and a read gets
  bytes that follow each other; -1 has its reasons.
* `sleepers`: who sleeps has nothing to do, with one exception.
* `end_of_file`: a read that returns without a byte has met the end of the stream.
-/

namespace OsLabs.Xv6Pipe

variable {Tid : Type} [DecidableEq Tid] {s s' : State Tid} {a : Act Tid} {as bs : List (Act Tid)}

/-! ### Runs -/

/-- **All invariants of a pipe**: the lock, the stream of bytes, what the calls have moved, who
sleeps, and what a read at the end of the stream has seen. -/
structure Inv (as : List (Act Tid)) (s : State Tid) : Prop where
  lock : LockInv s
  stream : StreamInv as s
  call : CallInv as s
  sleep : SleepInv as s
  eof : EofInv as s

variable {data : ℕ → UInt8}

/-- The invariants hold of a new pipe, at which nobody is. -/
theorem inv_pipealloc : Inv [] (pipealloc data : State Tid) where
  lock u := by simp [pipealloc, Pc.holds]
  stream := ⟨by simp [pipealloc], by simp [pipealloc, Pipe.contents, puts, takes]⟩
  call := ⟨fun _ => rfl, fun _ hread => by cases hread⟩
  sleep := ⟨fun _ h => (by cases h), fun _ h => (by cases h), fun _ _ h => (by cases h),
    fun _ _ _ h => (by cases h)⟩
  eof := ⟨fun _ _ h => (by cases h), fun _ _ h => (by cases h)⟩

/-- Every step keeps the invariants; for those of the sleepers the lock and the counts of the
calls are needed. -/
theorem Inv.step (h : Inv as s) (hstep : Step s a s') : Inv (as ++ [a]) s' where
  lock := h.lock.step hstep.outcome
  stream := h.stream.step hstep.outcome
  call := h.call.step h.lock hstep.outcome
  sleep := h.sleep.step h.lock h.call hstep.outcome
  eof := h.eof.step h.lock hstep.outcome

/-- The invariants hold after every run. -/
theorem inv_run (h : Runs Step (pipealloc data) as s) : Inv as s :=
  h.invariant_labels inv_pipealloc fun _ _ _ _ ht hstep => ht.step hstep

/-- **A pipe is a queue.** Whatever the readers and writers do, and however often the counters
have wrapped, all that was stored is what was taken, in that order, followed by what is in
the buffer, which is at most `PIPESIZE` bytes. -/
theorem fifo (h : Runs Step (pipealloc data) as s) :
    puts as = takes as ++ s.pipe.contents ∧ s.pipe.contents.length ≤ PIPESIZE := by
  have hinv := (inv_run h).stream
  refine ⟨hinv.stream, ?_⟩
  rw [Pipe.contents, length_ringContents]
  exact hinv.room

/-- Two bytes stored by one thread, the first taken by another. -/
theorem fifo_two : ∃ (as : List (Act (Fin 2))) (s : State (Fin 2)),
    Runs Step (pipealloc fun _ => 0) as s ∧ puts as = [104, 105] ∧ takes as = [104] ∧
      puts as = takes as ++ s.pipe.contents := by
  have hnil : Runs Step (pipealloc fun _ => 0 : State (Fin 2)) [] _ := .nil
  have hrun := hnil.snoc (.callWrite 0 2 rfl rfl) |>.snoc (.acquire 0 _ rfl rfl)
    |>.snoc (.writeTurn 0 2 0 (some 104) rfl) |>.snoc (.writeTurn 0 2 1 (some 105) rfl)
    |>.snoc (.writeTurn 0 2 2 none rfl) |>.snoc (.writeEnd 0 2 2 rfl)
    |>.snoc (.callRead 1 1 rfl rfl) |>.snoc (.acquire 1 _ rfl rfl) |>.snoc (.readTurn 1 1 rfl)
    |>.snoc (.copyTurn 1 1 0 true rfl)
  exact ⟨_, _, hrun, rfl, rfl, (fifo hrun).1⟩

/-- Why a call of `t` returns -1: a write has met a closed read end or a kill, a read a kill
while it found the pipe empty and the write end open. -/
def Refused (s : State Tid) (t : Tid) : Prop :=
  ((s.pc t).inWrite = true ∧ (s.pipe.readopen = false ∨ s.killed t = true)) ∨
    ((s.pc t).inRead = true ∧ s.pipe.contents = [] ∧ s.killed t = true)

/-- **What a call returns.** It is -1, for one of the reasons that there are, or the number of
bytes that the call has moved. The bytes of a read that returns a number follow each other in
the stream, up to one more that `copyout` has failed on and that is lost; a read that returns
-1 has taken none. -/
theorem returns {t : Tid} {v : ℤ} (h : Runs Step (pipealloc data) as s)
    (hret : Step s (.ret t v) s') :
    (v = -1 ∧ Refused s t ∧ ((s.pc t).inRead = true → moved t as = [])) ∨
      ∃ good bad, moved t as = good ++ bad ∧ v = good.length ∧
        (∀ x ∈ good, x.2 = true) ∧ bad.length ≤ 1 ∧ (∀ x ∈ bad, x.2 = false) ∧
        ((s.pc t).inRead = true → (good ++ bad).map Prod.fst <:+ takes as) := by
  have hinv := inv_run h
  have hm := hinv.call.count t
  have hlast := hinv.call.last t
  generalize ha : Act.ret t v = a at hret
  cases hret.outcome <;> cases ha
  case writeAbort n i ht hwhy =>
    refine .inl ⟨rfl, .inl ⟨by rw [ht]; rfl, hwhy⟩, fun hread => ?_⟩
    rw [ht] at hread
    cases hread
  case readAbort n hempty ht hkilled =>
    rw [ht] at hm
    exact .inl ⟨rfl, .inr ⟨by rw [ht]; rfl, Pipe.empty_iff.1 hempty, hkilled⟩, fun _ => hm⟩
  case writeEnd n i ht =>
    rw [ht] at hm
    refine .inr ⟨moved t as, [], (List.append_nil _).symm, by rw [hm.1], hm.2, Nat.zero_le _,
      by simp, fun hread => ?_⟩
    rw [ht] at hread
    cases hread
  case readEnd n i ht =>
    rw [ht] at hm
    obtain ⟨good, bad, heq, hlen, hgood, hbad, hfalse⟩ := hm
    refine .inr ⟨good, bad, heq, by rw [hlen], hgood, hbad, hfalse, fun hread => ?_⟩
    rw [← heq]
    exact hlast hread (by rw [ht]; rfl)

/-- A read whose `copyout` fails returns 0 and loses a byte; the write that comes after the
read end is closed returns -1. -/
theorem returns_lost : ∃ (as bs : List (Act (Fin 2))) (s s' u u' : State (Fin 2)),
    Runs Step (pipealloc fun _ => 0) as s ∧ Step s (.ret 1 0) s' ∧ moved 1 as = [(104, false)] ∧
      (∃ good bad, moved 1 as = good ++ bad ∧ (0 : ℤ) = (good.length : ℤ) ∧
        (∀ x ∈ good, x.2 = true) ∧ bad.length ≤ 1 ∧ (∀ x ∈ bad, x.2 = false) ∧
        ((s.pc 1).inRead = true → (good ++ bad).map Prod.fst <:+ takes as)) ∧
      Runs Step (pipealloc fun _ => 0) bs u ∧ Step u (.ret 0 (-1)) u' ∧ Refused u 0 := by
  have hnil : Runs Step (pipealloc fun _ => 0 : State (Fin 2)) [] _ := .nil
  have hrun := hnil.snoc (.callWrite 0 1 rfl rfl) |>.snoc (.acquire 0 _ rfl rfl)
    |>.snoc (.writeTurn 0 1 0 (some 104) rfl) |>.snoc (.writeTurn 0 1 1 none rfl)
    |>.snoc (.writeEnd 0 1 1 rfl) |>.snoc (.callRead 1 1 rfl rfl)
    |>.snoc (.acquire 1 _ rfl rfl) |>.snoc (.readTurn 1 1 rfl)
    |>.snoc (.copyTurn 1 1 0 false rfl)
  have hlate := hrun.snoc (.readEnd 1 1 0 rfl) |>.snoc (.closeRead rfl (by decide))
    |>.snoc (.callWrite 0 1 rfl rfl) |>.snoc (.acquire 0 _ rfl rfl)
  refine ⟨_, _, _, _, _, _, hrun, .readEnd 1 1 0 rfl, rfl, ?_, hlate, .writeTurn 0 1 0 none rfl, ?_⟩
  · exact (returns hrun (.readEnd 1 1 0 rfl)).resolve_left fun hne => absurd hne.1 (by decide)
  · refine ((returns hlate (.writeTurn 0 1 0 none rfl)).resolve_right ?_).2.1
    rintro ⟨good, bad, -, hv, -⟩
    omega

/-- **Who sleeps has nothing to do.** When the lock is free, a sleeping writer has found the
pipe full, and it still is; a sleeping reader has found it empty, and it still is, unless
some write has returned -1 after it had stored something: that path of `pipewrite` does not
wake the readers. -/
theorem sleepers (h : Runs Step (pipealloc data) as s) (hlock : s.lock = none) :
    (∀ t n i, s.pc t = .writeAsleep n i →
      s.pipe.contents.length = PIPESIZE ∧ s.pipe.readopen = true) ∧
    (∀ t n, s.pc t = .readAsleep n →
      (s.pipe.contents = [] ∧ s.pipe.writeopen = true) ∨ Aborted as) := by
  have hinv := inv_run h
  have hfree : ∀ u, (s.pc u).holds ≠ true := fun u hu => by
    have := (hinv.lock u).1 hu
    rw [hlock] at this
    cases this
  refine ⟨fun t n i ht => ?_, fun t n ht => ?_⟩
  · obtain ⟨hopen, hfull | ⟨u, hu⟩⟩ := hinv.sleep.writer t n i ht
    · refine ⟨?_, hopen⟩
      rw [Pipe.contents, length_ringContents]
      exact Pipe.full_iff.1 hfull
    · exact absurd (draining_holds hu) (hfree u)
  · rcases hinv.sleep.reader t n ht with ⟨hempty, hopen⟩ | ⟨u, hu⟩ | habort
    · exact .inl ⟨Pipe.empty_iff.1 hempty, hopen⟩
    · exact absurd (dirty_holds hu) (hfree u)
    · exact .inr habort

/-- A writer that is killed between two bytes leaves a reader asleep at a pipe with a byte. -/
theorem sleepers_killed : ∃ (as : List (Act (Fin 2))) (s : State (Fin 2)),
    Runs Step (pipealloc fun _ => 0) as s ∧ s.lock = none ∧ s.pc 1 = .readAsleep 1 ∧
      s.pipe.contents = [104] ∧ s.pipe.readopen = true ∧ Aborted as := by
  have hnil : Runs Step (pipealloc fun _ => 0 : State (Fin 2)) [] _ := .nil
  have hrun := hnil.snoc (.callRead 1 1 rfl rfl) |>.snoc (.acquire 1 _ rfl rfl)
    |>.snoc (.readTurn 1 1 rfl) |>.snoc (.callWrite 0 2 rfl rfl) |>.snoc (.acquire 0 _ rfl rfl)
    |>.snoc (.writeTurn 0 2 0 (some 104) rfl) |>.snoc (.kill 0)
    |>.snoc (.writeTurn 0 2 1 none rfl)
  refine ⟨_, _, hrun, rfl, rfl, rfl, rfl, ?_⟩
  rcases (sleepers hrun rfl).2 1 1 rfl with ⟨hempty, -⟩ | habort
  · cases hempty
  · exact habort

/-- No byte is stored once the write end is closed. -/
theorem puts_closed (h : Runs Step (pipealloc data) as s) (hclosed : s.pipe.writeopen = false)
    (hrun : Runs Step s bs s') : puts bs = [] := by
  have hinv := inv_run h
  have hstay : ∃ cs, Inv cs s' ∧ s'.pipe.writeopen = false ∧ puts bs = [] := by
    refine hrun.invariant_labels
      (P := fun bs s' => ∃ cs, Inv cs s' ∧ s'.pipe.writeopen = false ∧ puts bs = [])
      ⟨as, hinv, hclosed, rfl⟩ fun bs u a v hu hstep => ?_
    obtain ⟨cs, hcs, hopen, hnil⟩ := hu
    have hnext := hcs.step hstep
    rw [puts_append_singleton, hnil]
    cases hstep.outcome with
    | put t n i ch ht hfull =>
      have := hcs.sleep.writing t (by rw [ht]; rfl)
      rw [hopen] at this
      cases this
    | closeWrite hlock hin => exact ⟨_, hnext, rfl, rfl⟩
    | _ => exact ⟨_, hnext, hopen, rfl⟩
  exact hstay.choose_spec.2.2

/-- **The end of the stream.** A read of at least one byte that is about to return 0, and has
lost none, has met a closed write end: all that was ever stored has been taken, and nothing
will be stored any more. -/
theorem end_of_file {t : Tid} {n : ℤ} (h : Runs Step (pipealloc data) as s)
    (ht : s.pc t = .readDone n 0) (hn : 0 < n) (hnone : moved t as = []) :
    s.pipe.writeopen = false ∧ puts as = takes as ∧
      ∀ bs s', Runs Step s bs s' → puts bs = [] := by
  have hinv := inv_run h
  obtain ⟨hempty, hclosed⟩ := hinv.eof.done t n ht hn hnone
  refine ⟨hclosed, ?_, fun bs s' hrun => puts_closed h hclosed hrun⟩
  rw [hinv.stream.stream, Pipe.empty_iff.1 hempty, List.append_nil]

/-- A byte is stored and taken, the write end is closed, and the next read finds the end. -/
theorem end_of_file_closed : ∃ (as : List (Act (Fin 2))) (s : State (Fin 2)),
    Runs Step (pipealloc fun _ => 0) as s ∧ s.pc 1 = .readDone 1 0 ∧ takes as = [104] ∧
      s.pipe.writeopen = false ∧ puts as = takes as ∧
      ∀ bs s', Runs Step s bs s' → puts bs = [] := by
  have hnil : Runs Step (pipealloc fun _ => 0 : State (Fin 2)) [] _ := .nil
  have hrun := hnil.snoc (.callWrite 0 1 rfl rfl) |>.snoc (.acquire 0 _ rfl rfl)
    |>.snoc (.writeTurn 0 1 0 (some 104) rfl) |>.snoc (.writeTurn 0 1 1 none rfl)
    |>.snoc (.writeEnd 0 1 1 rfl) |>.snoc (.callRead 1 1 rfl rfl)
    |>.snoc (.acquire 1 _ rfl rfl) |>.snoc (.readTurn 1 1 rfl)
    |>.snoc (.copyTurn 1 1 0 true rfl) |>.snoc (.copyTurn 1 1 1 true rfl)
    |>.snoc (.readEnd 1 1 1 rfl) |>.snoc (.closeWrite rfl (by decide))
    |>.snoc (.callRead 1 1 rfl rfl) |>.snoc (.acquire 1 _ rfl rfl) |>.snoc (.readTurn 1 1 rfl)
    |>.snoc (.copyTurn 1 1 0 true rfl)
  exact ⟨_, _, hrun, rfl, rfl, end_of_file (t := 1) (n := 1) hrun rfl (by decide) rfl⟩

end OsLabs.Xv6Pipe
