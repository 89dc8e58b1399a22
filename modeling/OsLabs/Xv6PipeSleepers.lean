import OsLabs.Xv6PipeCalls

/-!
# Who Sleeps at a Pipe, and What a Read at its End Has Seen

Two invariants of the runs of `Xv6Pipe` that rest on those of the calls. A writer sleeps at a
full pipe or behind a reader that will wake it before it releases the lock; a reader sleeps
at an empty pipe with an open write end or behind a writer that has stored something, unless
such a writer has left with -1, which is the one path of `pipewrite` without a wakeup. A read
that has left its first loop has met bytes or a closed write end, and keeps the lock until it
returns.

## Main results

* `SleepInv.step`, `EofInv.step`: every step keeps them.
-/

namespace OsLabs.Xv6Pipe

variable {Tid : Type} [DecidableEq Tid] {s s' : State Tid} {a : Act Tid} {as bs : List (Act Tid)}

/-! ### Sleepers -/

/-- A write has returned -1 after it had stored something. -/
def Aborted (as : List (Act Tid)) : Prop :=
  ∃ l r t, as = l ++ .ret t (-1) :: r ∧ moved t l ≠ []

/-- What has happened stays in the history. -/
theorem Aborted.append (h : Aborted as) (bs : List (Act Tid)) : Aborted (as ++ bs) := by
  obtain ⟨l, r, t, rfl, hm⟩ := h
  exact ⟨l, r ++ bs, t, by simp, hm⟩

namespace Pc

/-- A writer that has stored something and has the lock. -/
def dirty : Pc → Bool
  | writing _ i | writeDone _ i => 0 < i
  | _ => false

/-- A reader that has the lock and will wake the writers. -/
def draining : Pc → Bool
  | copying _ _ | readDone _ _ => true
  | _ => false

end Pc

/-- A thread that is only woken has stored as much as before. -/
theorem Woken.dirty {p q : Pc} (h : Woken p q) : q.dirty = p.dirty := by
  rcases h with rfl | rfl | rfl
  · rfl
  · cases p <;> rfl
  · cases p <;> rfl

/-- It is as far in its read as before. -/
theorem Woken.draining {p q : Pc} (h : Woken p q) : q.draining = p.draining := by
  rcases h with rfl | rfl | rfl
  · rfl
  · cases p <;> rfl
  · cases p <;> rfl

/-- Nobody is put to sleep by being woken: a sleeping reader slept before. -/
theorem Woken.readAsleep {p : Pc} {n : ℤ} (h : Woken p (.readAsleep n)) : p = .readAsleep n := by
  rcases h with h | h | h
  · exact h.symm
  · cases p <;> cases h
  · cases p <;> first | exact h.symm | cases h

/-- A writer that sleeps after others have moved slept before. -/
theorem Woken.writeAsleep {p : Pc} {n : ℤ} {i : ℕ} (h : Woken p (.writeAsleep n i)) :
    p = .writeAsleep n i := by
  rcases h with h | h | h
  · exact h.symm
  · cases p <;> first | exact h.symm | cases h
  · cases p <;> cases h

/-- A writer that has stored something and not yet slept or returned has the lock. -/
theorem dirty_holds {p : Pc} (h : p.dirty = true) : p.holds = true := by
  cases p <;> first | rfl | cases h

/-- A reader between its loops and its return has the lock. -/
theorem draining_holds {p : Pc} (h : p.draining = true) : p.holds = true := by
  cases p <;> first | rfl | cases h

/-- **Who sleeps, and why.** A reader sleeps at an empty pipe with an open write end, or somebody
who has stored bytes will wake it, or has left without doing so; a writer sleeps at a full pipe
with an open read end, or a reader will wake it. -/
structure SleepInv (as : List (Act Tid)) (s : State Tid) : Prop where
  writing : ∀ t, (s.pc t).inWrite = true → s.pipe.writeopen = true
  reading : ∀ t, (s.pc t).inRead = true → s.pipe.readopen = true
  reader : ∀ t n, s.pc t = .readAsleep n → (s.pipe.Empty ∧ s.pipe.writeopen = true) ∨
    (∃ u, (s.pc u).dirty = true) ∨ Aborted as
  writer : ∀ t n i, s.pc t = .writeAsleep n i → s.pipe.readopen = true ∧
    (s.pipe.Full ∨ ∃ u, (s.pc u).draining = true)

/-- A step of `t` that leaves the pipe as it is. -/
theorem SleepInv.move (h : SleepInv as s) {t : Tid} (hpipe : s'.pipe = s.pipe)
    (hothers : ∀ u, u ≠ t → Woken (s.pc u) (s'.pc u))
    (hwrite : (s'.pc t).inWrite = true → (s.pc t).inWrite = true ∨ s.pipe.writeopen = true)
    (hread : (s'.pc t).inRead = true → (s.pc t).inRead = true ∨ s.pipe.readopen = true)
    (hreader : ∀ n, s'.pc t = .readAsleep n → s.pipe.Empty ∧ s.pipe.writeopen = true)
    (hwriter : ∀ n i, s'.pc t = .writeAsleep n i → s.pipe.readopen = true ∧ s.pipe.Full)
    (hdirty : (s.pc t).dirty = true → (s'.pc t).dirty = true ∨ Aborted (as ++ [a]) ∨
      ∀ r n, s'.pc r ≠ .readAsleep n)
    (hdrain : (s.pc t).draining = true → (s'.pc t).draining = true ∨
      ∀ r n i, s'.pc r ≠ .writeAsleep n i) : SleepInv (as ++ [a]) s' where
  writing u hu := by
    rw [hpipe]
    by_cases hut : u = t
    · rcases hwrite (hut ▸ hu) with h' | h'
      · exact h.writing t h'
      · exact h'
    · rw [(hothers u hut).inWrite] at hu
      exact h.writing u hu
  reading u hu := by
    rw [hpipe]
    by_cases hut : u = t
    · rcases hread (hut ▸ hu) with h' | h'
      · exact h.reading t h'
      · exact h'
    · rw [(hothers u hut).inRead] at hu
      exact h.reading u hu
  reader r n hr := by
    rw [hpipe]
    by_cases hrt : r = t
    · exact .inl (hreader n (hrt ▸ hr))
    · have hw := hothers r hrt
      rw [hr] at hw
      rcases h.reader r n hw.readAsleep with hempty | ⟨u, hu⟩ | habort
      · exact .inl hempty
      · by_cases hut : u = t
        · rcases hdirty (hut ▸ hu) with hd | habort | hnone
          · exact .inr (.inl ⟨t, hd⟩)
          · exact .inr (.inr habort)
          · exact absurd hr (hnone r n)
        · exact .inr (.inl ⟨u, (hothers u hut).dirty.trans hu⟩)
      · exact .inr (.inr (habort.append _))
  writer r n i hr := by
    rw [hpipe]
    by_cases hrt : r = t
    · exact (hwriter n i (hrt ▸ hr)).imp id .inl
    · have hw := hothers r hrt
      rw [hr] at hw
      obtain ⟨hopen, hfull | ⟨u, hu⟩⟩ := h.writer r n i hw.writeAsleep
      · exact ⟨hopen, .inl hfull⟩
      · refine ⟨hopen, ?_⟩
        by_cases hut : u = t
        · rcases hdrain (hut ▸ hu) with hd | hnone
          · exact .inr ⟨t, hd⟩
          · exact absurd hr (hnone r n i)
        · exact .inr ⟨u, (hothers u hut).draining.trans hu⟩

/-- A thread that has been woken as a reader does not sleep as one. -/
theorem wakeReader_ne (p : Pc) (n : ℤ) : p.wakeReader ≠ .readAsleep n := by
  cases p <;> simp [Pc.wakeReader]

/-- A thread that has been woken as a writer does not sleep as one. -/
theorem wakeWriter_ne (p : Pc) (n : ℤ) (i : ℕ) : p.wakeWriter ≠ .writeAsleep n i := by
  cases p <;> simp [Pc.wakeWriter]

/-- After `wakeup(&pi->nread)` no reader sleeps, unless the thread that has called it goes to
sleep itself. -/
theorem no_reader_asleep {t : Tid} {p : Pc} (hp : ∀ n, p ≠ .readAsleep n) (r : Tid) (n : ℤ) :
    (s.wakeReaders.goto t p).pc r ≠ .readAsleep n := by
  by_cases hrt : r = t
  · rw [hrt, pc_goto_self]
    exact hp n
  · rw [pc_goto_of_ne p hrt]
    exact wakeReader_ne _ n

/-- After `wakeup(&pi->nwrite)` no writer sleeps, unless the thread that has called it goes to
sleep itself. -/
theorem no_writer_asleep {t : Tid} {p : Pc} (hp : ∀ n i, p ≠ .writeAsleep n i) (r : Tid) (n : ℤ)
    (i : ℕ) : (s.wakeWriters.goto t p).pc r ≠ .writeAsleep n i := by
  by_cases hrt : r = t
  · rw [hrt, pc_goto_self]
    exact hp n i
  · rw [pc_goto_of_ne p hrt]
    exact wakeWriter_ne _ n i

omit [DecidableEq Tid] in
/-- Two threads that stand where the lock is held are the same. -/
theorem LockInv.unique (h : LockInv s) {t u : Tid} (ht : (s.pc t).holds = true)
    (hu : (s.pc u).holds = true) : u = t :=
  Option.some.inj (((h u).1 hu).symm.trans ((h t).1 ht))

/-- **No step leaves a thread asleep that has something to do**, but for a write that
returns -1 after it has stored something. -/
theorem SleepInv.step (h : SleepInv as s) (hlock : LockInv s) (hcall : CallInv as s)
    (hout : Outcome s a s') : SleepInv (as ++ [a]) s' := by
  cases hout with
  | enter t p ht hp =>
    refine h.move (t := t) rfl (woken_goto p) ?_ ?_ ?_ ?_ ?_ ?_ <;>
      simp only [pc_goto_self, ht] <;> rcases hp with ⟨n, rfl, hopen⟩ | ⟨n, rfl, hopen⟩ <;>
      simp [Pc.inWrite, Pc.inRead, Pc.dirty, Pc.draining, hopen]
  | acquire t p hlock' ht =>
    refine h.move (t := t) rfl (woken_goto p) ?_ ?_ ?_ ?_ ?_ ?_ <;>
      cases hpc : s.pc t <;> rw [hpc] at ht <;>
      simp only [Pc.acquired, Option.some.injEq, reduceCtorEq] at ht <;> subst ht <;>
      simp [Pc.inWrite, Pc.inRead, Pc.dirty, Pc.draining]
  | writeAbort t n i ht hwhy =>
    have hpc : (s.release t .outside).pc t = .outside := pc_goto_self t .outside
    refine h.move (t := t) rfl (woken_goto _) ?_ ?_ ?_ ?_ (fun hd => .inr (.inl ?_)) ?_ <;>
      try simp [hpc, ht, Pc.inWrite, Pc.inRead, Pc.draining]
    -- the writer leaves without a wakeup
    have hm := hcall.count t
    rw [ht] at hm hd
    have hpos : 0 < i := by simpa [Pc.dirty] using hd
    refine ⟨as, [], t, rfl, fun hnil => ?_⟩
    rw [hnil] at hm
    exact absurd hm.1 hpos.ne
  | writeSleep t n i ht hfull hopen =>
    have hpc : (s.wakeReaders.release t (.writeAsleep n i)).pc t = .writeAsleep n i :=
      pc_goto_self t _
    refine h.move (t := t) rfl (woken_wakeReaders _) ?_ ?_ ?_ ?_
      (fun _ => .inr (.inr (no_reader_asleep (by simp)))) ?_ <;>
      simp [hpc, ht, Pc.inWrite, Pc.inRead, Pc.draining, hopen, hfull]
  | writeStop t n i ht =>
    refine h.move (t := t) rfl (woken_goto _) ?_ ?_ ?_ ?_ ?_ ?_ <;>
      simp [ht, Pc.inWrite, Pc.inRead, Pc.dirty, Pc.draining]
    exact .inl
  | put t n i ch ht hfull =>
    have hholds : (s.pc t).holds = true := by rw [ht]; rfl
    have hwriting := h.writing t (by rw [ht]; rfl)
    refine ⟨fun u hu => hwriting, fun u hu => ?_, fun r m hr => ?_, fun r m j hr => ?_⟩
    · refine h.reading u ?_
      by_cases hut : u = t
      · subst hut
        change ((s.goto u _).pc u).inRead = true at hu
        rw [pc_goto_self] at hu
        cases hu
      · rwa [← (woken_goto (s := s) (.writing n (i + 1)) u hut).inRead]
    · refine .inr (.inl ⟨t, ?_⟩)
      change ((s.goto t _).pc t).dirty = true
      rw [pc_goto_self]
      simp [Pc.dirty]
    · exfalso
      have hrt : r ≠ t := fun heq => by
        subst heq
        have := (pc_goto_self (s := s) r (.writing n (i + 1))).symm.trans hr
        cases this
      have hw := woken_goto (s := s) (.writing n (i + 1)) r hrt
      rw [show (s.goto t _).pc r = _ from hr] at hw
      obtain ⟨-, hfull' | ⟨u, hu⟩⟩ := h.writer r m j hw.writeAsleep
      · exact hfull hfull'
      · rw [hlock.unique hholds (draining_holds hu), ht] at hu
        cases hu
  | writeEnd t n i ht =>
    have hpc : (s.wakeReaders.release t .outside).pc t = .outside := pc_goto_self t _
    refine h.move (t := t) rfl (woken_wakeReaders _) ?_ ?_ ?_ ?_
      (fun _ => .inr (.inr (no_reader_asleep (by simp)))) ?_ <;>
      simp [hpc, ht, Pc.inWrite, Pc.inRead, Pc.draining]
  | readAbort t n ht hempty hkilled =>
    have hpc : (s.release t .outside).pc t = .outside := pc_goto_self t _
    refine h.move (t := t) rfl (woken_goto _) ?_ ?_ ?_ ?_ ?_ ?_ <;>
      simp [hpc, ht, Pc.inWrite, Pc.inRead, Pc.dirty, Pc.draining]
  | readSleep t n ht hempty hopen =>
    have hpc : (s.release t (.readAsleep n)).pc t = .readAsleep n := pc_goto_self t _
    refine h.move (t := t) rfl (woken_goto _) ?_ ?_ ?_ ?_ ?_ ?_ <;>
      simp [hpc, ht, Pc.inWrite, Pc.inRead, Pc.dirty, Pc.draining, hempty, hopen]
  | readStart t n ht hready =>
    refine h.move (t := t) rfl (woken_goto _) ?_ ?_ ?_ ?_ ?_ ?_ <;>
      simp [ht, Pc.inWrite, Pc.inRead, Pc.dirty, Pc.draining]
  | take t n i ok ht hempty =>
    have hholds : (s.pc t).holds = true := by rw [ht]; rfl
    have hreading := h.reading t (by rw [ht]; rfl)
    refine ⟨fun u hu => ?_, fun u hu => hreading, fun r m hr => ?_, fun r m j hr => ?_⟩
    · refine h.writing u ?_
      by_cases hut : u = t
      · subst hut
        change ((s.goto u _).pc u).inWrite = true at hu
        rw [pc_goto_self] at hu
        cases ok <;> cases hu
      · rwa [← (woken_goto (s := s) (if ok then .copying n (i + 1) else .readDone n i) u
          hut).inWrite]
    · have hrt : r ≠ t := fun heq => by
        subst heq
        have := (pc_goto_self (s := s) r
          (if ok then .copying n (i + 1) else .readDone n i)).symm.trans hr
        cases ok <;> cases this
      have hw := woken_goto (s := s) (if ok then .copying n (i + 1) else .readDone n i) r hrt
      rw [show (s.goto t _).pc r = _ from hr] at hw
      rcases h.reader r m hw.readAsleep with ⟨hempty', -⟩ | ⟨u, hu⟩ | habort
      · exact absurd hempty' hempty
      · rw [hlock.unique hholds (dirty_holds hu), ht] at hu
        cases hu
      · exact .inr (.inr (habort.append _))
    · have hrt : r ≠ t := fun heq => by
        subst heq
        have := (pc_goto_self (s := s) r
          (if ok then .copying n (i + 1) else .readDone n i)).symm.trans hr
        cases ok <;> cases this
      have hw := woken_goto (s := s) (if ok then .copying n (i + 1) else .readDone n i) r hrt
      rw [show (s.goto t _).pc r = _ from hr] at hw
      refine ⟨(h.writer r m j hw.writeAsleep).1, .inr ⟨t, ?_⟩⟩
      change ((s.goto t _).pc t).draining = true
      rw [pc_goto_self]
      cases ok <;> rfl
  | readStop t n i ht hstop =>
    refine h.move (t := t) rfl (woken_goto _) ?_ ?_ ?_ ?_ ?_ ?_ <;>
      simp [ht, Pc.inWrite, Pc.inRead, Pc.dirty, Pc.draining]
  | readEnd t n i ht =>
    have hpc : (s.wakeWriters.release t .outside).pc t = .outside := pc_goto_self t _
    refine h.move (t := t) rfl (woken_wakeWriters _) ?_ ?_ ?_ ?_ ?_
      (fun _ => .inr (no_writer_asleep (by simp))) <;>
      simp [hpc, ht, Pc.inWrite, Pc.inRead, Pc.dirty]
  | closeWrite hlock' hin =>
    refine ⟨fun u hu => ?_, fun u hu => ?_, fun r n hr => absurd hr (wakeReader_ne _ n),
      fun r n i hr => ?_⟩
    · have hw : Woken (s.pc u) (s.closeWrite.pc u) := .inr (.inl rfl)
      rw [hw.inWrite, hin u] at hu
      cases hu
    · have hw : Woken (s.pc u) (s.closeWrite.pc u) := .inr (.inl rfl)
      rw [hw.inRead] at hu
      exact h.reading u hu
    · have hw : Woken (s.pc r) (s.closeWrite.pc r) := .inr (.inl rfl)
      rw [hr] at hw
      have := hin r
      rw [hw.writeAsleep] at this
      cases this
  | closeRead hlock' hin =>
    refine ⟨fun u hu => ?_, fun u hu => ?_, fun r n hr => ?_,
      fun r n i hr => absurd hr (wakeWriter_ne _ n i)⟩
    · have hw : Woken (s.pc u) (s.closeRead.pc u) := .inr (.inr rfl)
      rw [hw.inWrite] at hu
      exact h.writing u hu
    · have hw : Woken (s.pc u) (s.closeRead.pc u) := .inr (.inr rfl)
      rw [hw.inRead, hin u] at hu
      cases hu
    · have hw : Woken (s.pc r) (s.closeRead.pc r) := .inr (.inr rfl)
      rw [hr] at hw
      have := hin r
      rw [hw.readAsleep] at this
      cases this
  | kill t =>
    have hw := woken_kill (s := s) (t := t) t
    have hpc : (s.kill t).pc t = (s.pc t).wakeReader.wakeWriter := pc_goto_self t _
    refine h.move (t := t) rfl (fun u _ => woken_kill u) (fun hu => .inl (hw.inWrite ▸ hu))
      (fun hu => .inl (hw.inRead ▸ hu)) (fun n hn => ?_) (fun n i hn => ?_)
      (fun hd => .inl (hw.dirty.trans hd)) (fun hd => .inl (hw.draining.trans hd))
    · rw [hpc] at hn
      cases hp : s.pc t <;> rw [hp] at hn <;> cases hn
    · rw [hpc] at hn
      cases hp : s.pc t <;> rw [hp] at hn <;> cases hn

/-! ### The end of the stream -/

/-- **What a read that has moved nothing has seen**: at the start of its second loop bytes or a
closed write end, and after that loop a closed write end with nothing in the buffer. -/
structure EofInv (as : List (Act Tid)) (s : State Tid) : Prop where
  start : ∀ t n, s.pc t = .copying n 0 → ¬(s.pipe.Empty ∧ s.pipe.writeopen = true)
  done : ∀ t n, s.pc t = .readDone n 0 → 0 < n → moved t as = [] →
    s.pipe.Empty ∧ s.pipe.writeopen = false

/-- Who copies after others have moved copied before. -/
theorem Woken.copying {p : Pc} {n : ℤ} {i : ℕ} (h : Woken p (.copying n i)) :
    p = .copying n i := by
  rcases h with h | h | h
  · exact h.symm
  · cases p <;> first | exact h.symm | cases h
  · cases p <;> first | exact h.symm | cases h

/-- Who is done after others have moved was done before. -/
theorem Woken.readDone {p : Pc} {n : ℤ} {i : ℕ} (h : Woken p (.readDone n i)) :
    p = .readDone n i := by
  rcases h with h | h | h
  · exact h.symm
  · cases p <;> first | exact h.symm | cases h
  · cases p <;> first | exact h.symm | cases h

/-- A step of `t` concerns a reader with the lock only if it is `t`. -/
theorem EofInv.move (h : EofInv as s) (hlock : LockInv s) {t : Tid}
    (hby : a.by? = some t ∨ a.by? = none)
    (hpipe : s'.pipe = s.pipe ∨ (s.pc t).holds = true)
    (hothers : ∀ u, u ≠ t → Woken (s.pc u) (s'.pc u))
    (hstart : ∀ n, s'.pc t = .copying n 0 → ¬(s'.pipe.Empty ∧ s'.pipe.writeopen = true))
    (hdone : ∀ n, s'.pc t = .readDone n 0 → 0 < n → moved t (as ++ [a]) = [] →
      s'.pipe.Empty ∧ s'.pipe.writeopen = false) : EofInv (as ++ [a]) s' where
  start u n hu := by
    by_cases hut : u = t
    · exact hstart n (hut ▸ hu)
    · have hw := hothers u hut
      rw [hu] at hw
      rcases hpipe with hpipe | hholds
      · rw [hpipe]
        exact h.start u n hw.copying
      · exact absurd (hlock.unique hholds (by rw [hw.copying]; rfl)) hut
  done u n hu hn hm := by
    by_cases hut : u = t
    · subst hut
      exact hdone n hu hn hm
    · have hw := hothers u hut
      rw [hu] at hw
      rw [moved_append_singleton, Act.movedBy_of_ne hby hut] at hm
      rcases hpipe with hpipe | hholds
      · rw [hpipe]
        exact h.done u n hw.readDone hn hm
      · exact absurd (hlock.unique hholds (by rw [hw.readDone]; rfl)) hut

/-- A step after which `t` is not between the loops of `piperead` and its end. -/
theorem EofInv.elsewhere (h : EofInv as s) (hlock : LockInv s) {t : Tid}
    (hby : a.by? = some t ∨ a.by? = none) (hpipe : s'.pipe = s.pipe ∨ (s.pc t).holds = true)
    (hothers : ∀ u, u ≠ t → Woken (s.pc u) (s'.pc u)) (ht : (s'.pc t).draining = false) :
    EofInv (as ++ [a]) s' := by
  refine h.move hlock hby hpipe hothers (fun n hn => ?_) fun n hn => ?_ <;>
    rw [hn] at ht <;> cases ht

/-- With the lock free no reader is between its loops and its end. -/
theorem EofInv.free (hlock : s.lock = none) (hinv : LockInv s)
    (hall : ∀ u, Woken (s.pc u) (s'.pc u)) : EofInv bs s' := by
  have hnone : ∀ u, (s'.pc u).holds = false := fun u => by
    rw [(hall u).holds]
    by_contra hne
    have := (hinv u).1 (Bool.eq_true_of_not_eq_false hne)
    rw [hlock] at this
    cases this
  refine ⟨fun t n ht => ?_, fun t n ht => ?_⟩
  · have := hnone t
    rw [ht] at this
    cases this
  · have := hnone t
    rw [ht] at this
    cases this

/-- **Every step keeps what the reads have seen.** From its first loop to its return a read has
the lock, so that neither a byte is stored nor an end closed in between. -/
theorem EofInv.step (h : EofInv as s) (hlock : LockInv s) (hout : Outcome s a s') :
    EofInv (as ++ [a]) s' := by
  cases hout with
  | enter t p ht hp =>
    refine h.elsewhere hlock (.inr rfl) (.inl rfl) (woken_goto p) ?_
    rw [pc_goto_self]
    rcases hp with ⟨n, rfl, -⟩ | ⟨n, rfl, -⟩ <;> rfl
  | acquire t p hlock' ht =>
    refine h.elsewhere (t := t) hlock (.inr rfl) (.inl rfl) (woken_goto p) ?_
    change ((s.goto t p).pc t).draining = false
    rw [pc_goto_self]
    cases hpc : s.pc t <;> rw [hpc] at ht <;> cases ht <;> rfl
  | writeAbort t n i ht hwhy =>
    exact h.elsewhere hlock (.inl rfl) (.inl rfl) (woken_goto _)
      (congrArg Pc.draining (pc_goto_self t .outside))
  | writeSleep t n i ht hfull hopen =>
    exact h.elsewhere hlock (.inr rfl) (.inl rfl) (woken_wakeReaders _)
      (congrArg Pc.draining (pc_goto_self t (.writeAsleep n i)))
  | writeStop t n i ht =>
    exact h.elsewhere hlock (.inr rfl) (.inl rfl) (woken_goto _)
      (congrArg Pc.draining (pc_goto_self t (.writeDone n i)))
  | put t n i ch ht hfull =>
    exact h.elsewhere hlock (.inl rfl) (.inr (by rw [ht]; rfl)) (woken_goto _)
      (congrArg Pc.draining (pc_goto_self t (.writing n (i + 1))))
  | writeEnd t n i ht =>
    exact h.elsewhere hlock (.inl rfl) (.inl rfl) (woken_wakeReaders _)
      (congrArg Pc.draining (pc_goto_self t .outside))
  | readAbort t n ht hempty hkilled =>
    exact h.elsewhere hlock (.inl rfl) (.inl rfl) (woken_goto _)
      (congrArg Pc.draining (pc_goto_self t .outside))
  | readSleep t n ht hempty hopen =>
    exact h.elsewhere hlock (.inr rfl) (.inl rfl) (woken_goto _)
      (congrArg Pc.draining (pc_goto_self t (.readAsleep n)))
  | readStart t n ht hready =>
    refine h.move hlock (.inr rfl) (.inl rfl) (woken_goto _) (fun _ _ => hready) fun m hm => ?_
    rw [pc_goto_self] at hm
    cases hm
  | take t n i ok ht hempty =>
    refine h.move (t := t) hlock (.inl rfl) (.inr (by rw [ht]; rfl)) (woken_goto _)
      (fun m hm => ?_) fun m hm _ hnil => ?_
    · have := (pc_goto_self (s := s) t
        (if ok then .copying n (i + 1) else .readDone n i)).symm.trans hm
      cases ok <;> simp at this
    · rw [moved_append_singleton, Act.movedBy, if_pos rfl] at hnil
      simp at hnil
  | readStop t n i ht hstop =>
    refine h.move hlock (.inr rfl) (.inl rfl) (woken_goto _) (fun m hm => ?_) fun m hm hpos _ => ?_
    · rw [pc_goto_self] at hm
      cases hm
    · rw [pc_goto_self] at hm
      obtain ⟨rfl, rfl⟩ := Pc.readDone.inj hm
      have hempty := hstop hpos
      refine ⟨hempty, ?_⟩
      by_contra hne
      exact h.start t n ht ⟨hempty, Bool.eq_true_of_not_eq_false hne⟩
  | readEnd t n i ht =>
    exact h.elsewhere hlock (.inl rfl) (.inl rfl) (woken_wakeWriters _)
      (congrArg Pc.draining (pc_goto_self t .outside))
  | closeWrite hlock' hin => exact .free hlock' hlock fun _ => .inr (.inl rfl)
  | closeRead hlock' hin => exact .free hlock' hlock fun _ => .inr (.inr rfl)
  | kill t =>
    refine h.move (t := t) hlock (.inr rfl) (.inl rfl) (fun u _ => woken_kill u) (fun m hm => ?_)
      fun m hm hpos hnil => ?_
    · have hw := woken_kill (s := s) (t := t) t
      rw [hm] at hw
      exact h.start t m hw.copying
    · have hw := woken_kill (s := s) (t := t) t
      rw [hm] at hw
      rw [moved_append_singleton] at hnil
      exact h.done t m hw.readDone hpos hnil

end OsLabs.Xv6Pipe
