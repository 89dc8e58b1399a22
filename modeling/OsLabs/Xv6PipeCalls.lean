import OsLabs.Xv6Pipe

/-!
# What the Calls on a Pipe Have Moved

Three invariants of the runs of `Xv6Pipe`, each kept by every step. The lock has one holder,
the thread that stands where the source holds `pi->lock`. The buffer holds what was stored
and not yet taken, with the counters read modulo `2 ^ 32`. Each call has counted the bytes
that it has moved, and a reader that holds the lock has the last bytes that were taken.

## Main results

* `LockInv.step`, `StreamInv.step`, `CallInv.step`: every step keeps them.
-/

namespace OsLabs.Xv6Pipe

variable {Tid : Type} [DecidableEq Tid] {s s' : State Tid} {a : Act Tid} {as : List (Act Tid)}

/-! ### The lock -/

/-- A thread that is woken does not yet have the lock, as when it slept. -/
@[simp] theorem holds_wakeReader (p : Pc) : p.wakeReader.holds = p.holds := by cases p <;> rfl

/-- A writer that is woken does not yet have the lock either. -/
@[simp] theorem holds_wakeWriter (p : Pc) : p.wakeWriter.holds = p.holds := by cases p <;> rfl

/-- A thread that gets the lock continues where the source holds it. -/
theorem holds_of_acquired {p q : Pc} (h : p.acquired = some q) : q.holds = true := by
  cases p <;> simp only [Pc.acquired, Option.some.injEq, reduceCtorEq] at h <;> subst h <;> rfl

/-- The thread that moves is where it has moved to. -/
@[simp] theorem pc_goto_self (t : Tid) (p : Pc) : (s.goto t p).pc t = p :=
  Function.update_self ..

/-- All other threads are where they were. -/
theorem pc_goto_of_ne {t u : Tid} (p : Pc) (h : u ≠ t) : (s.goto t p).pc u = s.pc u :=
  Function.update_of_ne h ..

/-- The thread that holds the lock is the one that is where the lock is held. -/
def LockInv (s : State Tid) : Prop := ∀ u, (s.pc u).holds = true ↔ s.lock = some u

/-- A move that neither takes nor releases the lock. -/
theorem LockInv.goto (h : LockInv s) {t : Tid} {p : Pc} (hp : p.holds = (s.pc t).holds) :
    LockInv (s.goto t p) := fun u => by
  by_cases hu : u = t
  · subst hu
    rw [pc_goto_self, hp]
    exact h u
  · rw [pc_goto_of_ne p hu]
    exact h u

/-- The holder moves on and gives the lock up, so that nobody has it. -/
theorem LockInv.release (h : LockInv s) {t : Tid} {p : Pc} (ht : (s.pc t).holds = true)
    (hp : p.holds = false) : LockInv (s.release t p) := fun u => by
  change ((s.goto t p).pc u).holds = true ↔ none = some u
  by_cases hu : u = t
  · subst hu
    simp [hp]
  · rw [pc_goto_of_ne p hu, h u, (h t).1 ht]
    simp [Ne.symm hu]

omit [DecidableEq Tid] in
/-- Who is woken has to take the lock first. -/
theorem LockInv.wakeReaders (h : LockInv s) : LockInv s.wakeReaders := fun u => by
  simp only [State.wakeReaders, holds_wakeReader]
  exact h u

omit [DecidableEq Tid] in
/-- A writer that is woken has to take the lock first as well. -/
theorem LockInv.wakeWriters (h : LockInv s) : LockInv s.wakeWriters := fun u => by
  simp only [State.wakeWriters, holds_wakeWriter]
  exact h u

/-- **Every step keeps the lock invariant**: only `acquire` lets a thread in, and it asks for a
free lock. -/
theorem LockInv.step (h : LockInv s) (hout : Outcome s a s') : LockInv s' := by
  cases hout with
  | enter t p ht hp =>
    refine h.goto ?_
    rw [ht]
    rcases hp with ⟨n, rfl, -⟩ | ⟨n, rfl, -⟩ <;> rfl
  | acquire t p hlock ht =>
    intro u
    change ((s.goto t p).pc u).holds = true ↔ some t = some u
    by_cases hu : u = t
    · subst hu
      simp [holds_of_acquired ht]
    · rw [pc_goto_of_ne p hu, h u, hlock]
      simp [Ne.symm hu]
  | writeAbort t n i ht hwhy => exact h.release (by rw [ht]; rfl) rfl
  | writeSleep t n i ht hfull hopen =>
    exact h.wakeReaders.release ((holds_wakeReader _).trans (by rw [ht]; rfl)) rfl
  | writeStop t n i ht => exact h.goto (by rw [ht]; rfl)
  | put t n i ch ht hfull => exact h.goto (t := t) (p := .writing n (i + 1)) (by rw [ht]; rfl)
  | writeEnd t n i ht =>
    exact h.wakeReaders.release ((holds_wakeReader _).trans (by rw [ht]; rfl)) rfl
  | readAbort t n ht hempty hkilled => exact h.release (by rw [ht]; rfl) rfl
  | readSleep t n ht hempty hopen => exact h.release (by rw [ht]; rfl) rfl
  | readStart t n ht hready => exact h.goto (by rw [ht]; rfl)
  | take t n i ok ht hempty =>
    exact h.goto (t := t) (p := if ok then .copying n (i + 1) else .readDone n i)
      (by rw [ht]; cases ok <;> rfl)
  | readStop t n i ht hstop => exact h.goto (by rw [ht]; rfl)
  | readEnd t n i ht =>
    exact h.wakeWriters.release ((holds_wakeWriter _).trans (by rw [ht]; rfl)) rfl
  | closeWrite hlock hin => exact h.wakeReaders
  | closeRead hlock hin => exact h.wakeWriters
  | kill t => exact h.goto (by simp)

/-! ### The stream of bytes -/

namespace Pipe

variable {p : Pipe}

/-- The index of a counter in the buffer goes on where the counter wraps. -/
theorem pipesize_dvd : PIPESIZE ∣ 2 ^ 32 := by decide

/-- The buffer is smaller than the range of the counters. -/
theorem pipesize_lt : PIPESIZE < 2 ^ 32 := by decide

/-- The test of `pipewrite`, a sum that may wrap, says that the buffer has no room left. -/
theorem full_iff : p.Full ↔ ringLength p.nread p.nwrite = PIPESIZE := by
  have hmod : (BitVec.ofNat 32 PIPESIZE).toNat = PIPESIZE := by decide
  constructor
  · intro h
    refine ringLength_eq ?_ pipesize_lt
    rw [h, BitVec.toNat_add, hmod]
  · intro h
    have hadd := toNat_add_ringLength p.nread p.nwrite
    rw [h] at hadd
    refine BitVec.eq_of_toNat_eq ?_
    rw [BitVec.toNat_add, hmod, hadd]

/-- The test of `piperead` says that there is nothing in the buffer. -/
theorem empty_iff : p.Empty ↔ p.contents = [] := ringContents_eq_nil.symm

/-- While there is room a stored byte comes last. -/
theorem contents_put (ch : UInt8) (h : ringLength p.nread p.nwrite < PIPESIZE) :
    (p.put ch).contents = p.contents ++ [ch] :=
  ringContents_push pipesize_dvd pipesize_lt h ch

/-- What `piperead` takes is the first byte of the buffer. -/
theorem contents_take (h : ¬p.Empty) : p.contents = p.first :: p.take.contents :=
  ringContents_pop pipesize_dvd h

end Pipe

/-- **The invariant of the buffer**: it holds what was stored and not yet taken. -/
structure StreamInv (as : List (Act Tid)) (s : State Tid) : Prop where
  room : ringLength s.pipe.nread s.pipe.nwrite ≤ PIPESIZE
  stream : puts as = takes as ++ s.pipe.contents

omit [DecidableEq Tid] in
/-- A step that neither stores nor takes a byte. -/
theorem StreamInv.same (h : StreamInv as s) (hstored : a.stored = none) (htaken : a.taken = none)
    (hread : s'.pipe.nread = s.pipe.nread) (hwrite : s'.pipe.nwrite = s.pipe.nwrite)
    (hdata : s'.pipe.data = s.pipe.data) : StreamInv (as ++ [a]) s' where
  room := by
    rw [hread, hwrite]
    exact h.room
  stream := by
    rw [puts_append_singleton, takes_append_singleton, hstored, htaken, Option.toList_none,
      List.append_nil, List.append_nil, Pipe.contents, hread, hwrite, hdata]
    exact h.stream

/-- **Every step keeps the stream.** Only the two steps that move a byte touch the counters. -/
theorem StreamInv.step (h : StreamInv as s) (hout : Outcome s a s') :
    StreamInv (as ++ [a]) s' := by
  cases hout with
  | put t n i ch ht hfull =>
    have hlt : ringLength s.pipe.nread s.pipe.nwrite < PIPESIZE :=
      lt_of_le_of_ne h.room fun heq => hfull (Pipe.full_iff.2 heq)
    refine ⟨?_, ?_⟩
    · change ringLength s.pipe.nread (s.pipe.nwrite + 1) ≤ PIPESIZE
      have hsize := Pipe.pipesize_lt
      rw [ringLength_succ (by omega)]
      exact hlt
    · rw [puts_append_singleton, takes_append_singleton, h.stream]
      change _ = takes as ++ [] ++ (s.pipe.put ch).contents
      rw [Pipe.contents_put ch hlt, List.append_nil, List.append_assoc]
      rfl
  | take t n i ok ht hempty =>
    have hlen := ringLength_succ_left (r := s.pipe.nread) (e := s.pipe.nwrite) hempty
    have hroom := h.room
    refine ⟨?_, ?_⟩
    · change ringLength (s.pipe.nread + 1) s.pipe.nwrite ≤ PIPESIZE
      omega
    · rw [puts_append_singleton, takes_append_singleton, h.stream, Pipe.contents_take hempty]
      change takes as ++ s.pipe.first :: s.pipe.take.contents ++ [] =
        takes as ++ [s.pipe.first] ++ s.pipe.take.contents
      rw [List.append_nil, List.append_assoc]
      rfl
  | closeWrite hlock hin => exact h.same rfl rfl rfl rfl rfl
  | closeRead hlock hin => exact h.same rfl rfl rfl rfl rfl
  | enter t p ht hp => exact h.same rfl rfl rfl rfl rfl
  | acquire t p hlock ht => exact h.same rfl rfl rfl rfl rfl
  | writeAbort t n i ht hwhy => exact h.same rfl rfl rfl rfl rfl
  | writeSleep t n i ht hfull hopen => exact h.same rfl rfl rfl rfl rfl
  | writeStop t n i ht => exact h.same rfl rfl rfl rfl rfl
  | writeEnd t n i ht => exact h.same rfl rfl rfl rfl rfl
  | readAbort t n ht hempty hkilled => exact h.same rfl rfl rfl rfl rfl
  | readSleep t n ht hempty hopen => exact h.same rfl rfl rfl rfl rfl
  | readStart t n ht hready => exact h.same rfl rfl rfl rfl rfl
  | readStop t n i ht hstop => exact h.same rfl rfl rfl rfl rfl
  | readEnd t n i ht => exact h.same rfl rfl rfl rfl rfl
  | kill t => exact h.same rfl rfl rfl rfl rfl

/-! ### What a call has moved -/

/-- What a thread has moved where it is in its call. -/
def Pc.Moved (m : List (UInt8 × Bool)) : Pc → Prop
  | outside | readEnter _ | reading _ | readAsleep _ => m = []
  | writeEnter _ i | writing _ i | writeAsleep _ i | writeDone _ i | copying _ i =>
    m.length = i ∧ ∀ x ∈ m, x.2 = true
  | readDone _ i => ∃ good bad, m = good ++ bad ∧ good.length = i ∧
      (∀ x ∈ good, x.2 = true) ∧ bad.length ≤ 1 ∧ ∀ x ∈ bad, x.2 = false

/-- Waking a thread does not change what it has to have moved. -/
@[simp] theorem moved_wakeReader (m : List (UInt8 × Bool)) (p : Pc) :
    p.wakeReader.Moved m ↔ p.Moved m := by
  cases p <;> rfl

/-- Waking a writer does not change what it has to have moved. -/
@[simp] theorem moved_wakeWriter (m : List (UInt8 × Bool)) (p : Pc) :
    p.wakeWriter.Moved m ↔ p.Moved m := by
  cases p <;> rfl

/-- **The invariant of the calls**: each call has counted what it has moved, and a read has
the last bytes that were taken. -/
structure CallInv (as : List (Act Tid)) (s : State Tid) : Prop where
  count : ∀ t, (s.pc t).Moved (moved t as)
  last : ∀ t, (s.pc t).inRead = true → (s.pc t).holds = true →
    (moved t as).map Prod.fst <:+ takes as

/-- The thread that a step is of, where it shows one. -/
def Act.by? : Act Tid → Option Tid
  | put t _ | take t _ _ | ret t _ => some t
  | silent => none

/-- A step of one thread moves nothing for another one. -/
theorem Act.movedBy_of_ne {t u : Tid} (h : a.by? = some t ∨ a.by? = none) (hu : u ≠ t)
    (m : List (UInt8 × Bool)) : a.movedBy u m = m := by
  cases a with
  | silent => rfl
  | _ =>
    simp only [Act.by?, Option.some.injEq, reduceCtorEq, or_false] at h
    subst h
    exact if_neg (Ne.symm hu)

/-- Where a thread that has not moved may be after a step. -/
def Woken (p q : Pc) : Prop := q = p ∨ q = p.wakeReader ∨ q = p.wakeWriter

/-- A thread that is only woken holds the lock as before, which is not at all if it slept. -/
theorem Woken.holds {p q : Pc} (h : Woken p q) : q.holds = p.holds := by
  rcases h with rfl | rfl | rfl <;> simp

/-- A thread that is only woken stays in its read, if it was in one. -/
theorem Woken.inRead {p q : Pc} (h : Woken p q) : q.inRead = p.inRead := by
  rcases h with rfl | rfl | rfl
  · rfl
  · cases p <;> rfl
  · cases p <;> rfl

/-- A thread that is only woken stays in its write, if it was in one. -/
theorem Woken.inWrite {p q : Pc} (h : Woken p q) : q.inWrite = p.inWrite := by
  rcases h with rfl | rfl | rfl
  · rfl
  · cases p <;> rfl
  · cases p <;> rfl

/-- A thread that is only woken has moved as much as before. -/
theorem Woken.moved {p q : Pc} {m : List (UInt8 × Bool)} (h : Woken p q) :
    q.Moved m ↔ p.Moved m := by
  rcases h with rfl | rfl | rfl <;> simp

/-- A step of `t` keeps the invariant for all others. -/
theorem CallInv.move (h : CallInv as s) (hlock : LockInv s) {t : Tid}
    (hby : a.by? = some t ∨ a.by? = none) (htaken : a.taken = none ∨ (s.pc t).holds = true)
    (hothers : ∀ u, u ≠ t → Woken (s.pc u) (s'.pc u))
    (hcount : (s'.pc t).Moved (moved t (as ++ [a])))
    (hlast : (s'.pc t).inRead = true → (s'.pc t).holds = true →
      (moved t (as ++ [a])).map Prod.fst <:+ takes (as ++ [a])) : CallInv (as ++ [a]) s' where
  count u := by
    by_cases hu : u = t
    · exact hu ▸ hcount
    · rw [moved_append_singleton, Act.movedBy_of_ne hby hu, (hothers u hu).moved]
      exact h.count u
  last u hread hholds := by
    by_cases hu : u = t
    · subst hu
      exact hlast hread hholds
    · have hw := hothers u hu
      rw [hw.inRead] at hread
      rw [hw.holds] at hholds
      have hnone : a.taken = none := by
        rcases htaken with htaken | htaken
        · exact htaken
        · have heq := ((hlock u).1 hholds).symm.trans ((hlock t).1 htaken)
          exact absurd (Option.some.inj heq) hu
      rw [moved_append_singleton, Act.movedBy_of_ne hby hu, takes_append_singleton, hnone,
        Option.toList_none, List.append_nil]
      exact h.last u hread hholds

/-- When one thread has moved, the others are where they were. -/
theorem woken_goto {t : Tid} (p : Pc) : ∀ u, u ≠ t → Woken (s.pc u) ((s.goto t p).pc u) :=
  fun _ hu => .inl (pc_goto_of_ne p hu)

/-- When `t` has woken the readers and moved, the others are at most woken. -/
theorem woken_wakeReaders {t : Tid} (p : Pc) :
    ∀ u, u ≠ t → Woken (s.pc u) ((s.wakeReaders.goto t p).pc u) :=
  fun _ hu => .inr (.inl (pc_goto_of_ne p hu))

/-- When `t` has woken the writers and moved, the others are at most woken. -/
theorem woken_wakeWriters {t : Tid} (p : Pc) :
    ∀ u, u ≠ t → Woken (s.pc u) ((s.wakeWriters.goto t p).pc u) :=
  fun _ hu => .inr (.inr (pc_goto_of_ne p hu))

/-- `kill` wakes its process wherever it sleeps, and nobody else. -/
theorem woken_kill {t : Tid} (u : Tid) : Woken (s.pc u) ((s.kill t).pc u) := by
  change Woken (s.pc u) ((s.goto t (s.pc t).wakeReader.wakeWriter).pc u)
  by_cases hu : u = t
  · subst hu
    rw [pc_goto_self]
    cases s.pc u with
    | readAsleep n => exact .inr (.inl rfl)
    | writeAsleep n i => exact .inr (.inr rfl)
    | _ => exact .inl rfl
  · exact .inl (pc_goto_of_ne _ hu)

/-- A silent step of `t` to a place with the same count. -/
theorem CallInv.silent (h : CallInv as s) (hlock : LockInv s) {t : Tid}
    (hothers : ∀ u, u ≠ t → Woken (s.pc u) (s'.pc u))
    (hcount : (s.pc t).Moved (moved t as) → (s'.pc t).Moved (moved t as))
    (hlast : (s'.pc t).inRead = true → (s'.pc t).holds = true →
      moved t as = [] ∨ ((s.pc t).inRead = true ∧ (s.pc t).holds = true)) :
    CallInv (as ++ [.silent]) s' := by
  refine h.move hlock (.inr rfl) (.inl rfl) hothers ?_ fun hread hholds => ?_
  · rw [moved_append_singleton]
    exact hcount (h.count t)
  · rw [moved_append_singleton, takes_append_singleton]
    change (moved t as).map Prod.fst <:+ takes as ++ []
    rw [List.append_nil]
    rcases hlast hread hholds with hnil | ⟨hread, hholds⟩
    · rw [hnil]
      exact List.nil_suffix
    · exact h.last t hread hholds

/-- A step that only wakes threads changes no count. -/
theorem CallInv.woken (h : CallInv as s) (hall : ∀ u, Woken (s.pc u) (s'.pc u)) :
    CallInv (as ++ [.silent]) s' where
  count u := by
    rw [moved_append_singleton, (hall u).moved]
    exact h.count u
  last u hread hholds := by
    rw [moved_append_singleton, takes_append_singleton]
    change (moved u as).map Prod.fst <:+ takes as ++ []
    rw [List.append_nil]
    rw [(hall u).inRead] at hread
    rw [(hall u).holds] at hholds
    exact h.last u hread hholds

/-- When a call returns, its thread starts the next one from nothing. -/
theorem CallInv.ret (h : CallInv as s) (hlock : LockInv s) {t : Tid} {v : ℤ}
    (hothers : ∀ u, u ≠ t → Woken (s.pc u) (s'.pc u)) (ht : s'.pc t = .outside) :
    CallInv (as ++ [.ret t v]) s' := by
  refine h.move hlock (.inl rfl) (.inl rfl) hothers ?_ fun hread => ?_
  · rw [ht, moved_append_singleton]
    exact if_pos rfl
  · rw [ht] at hread
    cases hread

/-- **Every step keeps the counts of the calls.** The lock keeps a reader that is copying from
being overtaken, so that its bytes stay the last ones taken. -/
theorem CallInv.step (h : CallInv as s) (hlock : LockInv s) (hout : Outcome s a s') :
    CallInv (as ++ [a]) s' := by
  cases hout with
  | enter t p ht hp =>
    refine h.silent hlock (woken_goto p) (fun hm => ?_) fun _ hholds => ?_
    · rw [ht] at hm
      rw [pc_goto_self]
      rcases hp with ⟨n, rfl, -⟩ | ⟨n, rfl, -⟩
      · exact ⟨by rw [hm]; rfl, by rw [hm]; simp⟩
      · exact hm
    · rw [pc_goto_self] at hholds
      rcases hp with ⟨n, rfl, -⟩ | ⟨n, rfl, -⟩ <;> cases hholds
  | acquire t p hlock' ht =>
    refine h.silent (t := t) hlock (woken_goto p) (fun hm => ?_) fun hread _ => ?_
    · change ((s.goto t p).pc t).Moved _
      rw [pc_goto_self]
      cases hpc : s.pc t <;> rw [hpc] at ht hm <;>
        simp only [Pc.acquired, Option.some.injEq, reduceCtorEq] at ht <;> subst ht <;> exact hm
    · change ((s.goto t p).pc t).inRead = true at hread
      rw [pc_goto_self] at hread
      have hm := h.count t
      cases hpc : s.pc t <;> rw [hpc] at ht hm <;>
        simp only [Pc.acquired, Option.some.injEq, reduceCtorEq] at ht <;> subst ht
      · cases hread
      · exact .inl hm
  | writeAbort t n i ht hwhy => exact h.ret hlock (woken_goto _) (pc_goto_self ..)
  | writeSleep t n i ht hfull hopen =>
    refine h.silent (t := t) hlock (woken_wakeReaders _) (fun hm => ?_) fun hread => ?_
    · change ((s.wakeReaders.goto t _).pc t).Moved _
      rw [pc_goto_self]
      rwa [ht] at hm
    · change ((s.wakeReaders.goto t _).pc t).inRead = true at hread
      rw [pc_goto_self] at hread
      cases hread
  | writeStop t n i ht =>
    refine h.silent hlock (woken_goto _) (fun hm => ?_) fun hread => ?_
    · rw [pc_goto_self]
      rwa [ht] at hm
    · rw [pc_goto_self] at hread
      cases hread
  | put t n i ch ht hfull =>
    have hm := h.count t
    rw [ht] at hm
    refine h.move (t := t) hlock (.inl rfl) (.inl rfl) (woken_goto _) ?_ fun hread => ?_
    · change ((s.goto t _).pc t).Moved _
      rw [pc_goto_self, moved_append_singleton, Act.movedBy, if_pos rfl]
      refine ⟨by rw [List.length_append, hm.1]; rfl, fun x hx => ?_⟩
      rcases List.mem_append.1 hx with hx | hx
      · exact hm.2 x hx
      · rw [List.mem_singleton.1 hx]
    · change ((s.goto t _).pc t).inRead = true at hread
      rw [pc_goto_self] at hread
      cases hread
  | writeEnd t n i ht => exact h.ret hlock (woken_wakeReaders _) (pc_goto_self ..)
  | readAbort t n ht hempty hkilled => exact h.ret hlock (woken_goto _) (pc_goto_self ..)
  | readSleep t n ht hempty hopen =>
    refine h.silent (t := t) hlock (woken_goto _) (fun hm => ?_) fun _ hholds => ?_
    · change ((s.goto t _).pc t).Moved _
      rw [pc_goto_self]
      rwa [ht] at hm
    · change ((s.goto t _).pc t).holds = true at hholds
      rw [pc_goto_self] at hholds
      cases hholds
  | readStart t n ht hready =>
    have hm := h.count t
    rw [ht] at hm
    refine h.silent hlock (woken_goto _) (fun _ => ?_) fun _ _ => .inl hm
    rw [pc_goto_self]
    exact ⟨by rw [hm]; rfl, by rw [hm]; simp⟩
  | take t n i ok ht hempty =>
    have hm := h.count t
    have hlast := h.last t (by rw [ht]; rfl) (by rw [ht]; rfl)
    rw [ht] at hm
    refine h.move (t := t) hlock (.inl rfl) (.inr (by rw [ht]; rfl)) (woken_goto _) ?_
      fun _ _ => ?_
    · change ((s.goto t _).pc t).Moved _
      rw [pc_goto_self, moved_append_singleton, Act.movedBy, if_pos rfl]
      cases ok with
      | true =>
        refine ⟨by rw [List.length_append, hm.1]; rfl, fun x hx => ?_⟩
        rcases List.mem_append.1 hx with hx | hx
        · exact hm.2 x hx
        · rw [List.mem_singleton.1 hx]
      | false => exact ⟨_, _, rfl, hm.1, hm.2, le_rfl, by simp⟩
    · rw [moved_append_singleton, takes_append_singleton, Act.movedBy, if_pos rfl, List.map_append]
      obtain ⟨pre, hpre⟩ := hlast
      exact ⟨pre, by rw [← List.append_assoc, hpre]; rfl⟩
  | readStop t n i ht hstop =>
    refine h.silent hlock (woken_goto _) (fun hm => ?_)
      fun _ _ => .inr (by rw [ht]; exact ⟨rfl, rfl⟩)
    rw [ht] at hm
    rw [pc_goto_self]
    exact ⟨_, [], (List.append_nil _).symm, hm.1, hm.2, Nat.zero_le _, by simp⟩
  | readEnd t n i ht => exact h.ret hlock (woken_wakeWriters _) (pc_goto_self ..)
  | closeWrite hlock' hin => exact h.woken fun _ => .inr (.inl rfl)
  | closeRead hlock' hin => exact h.woken fun _ => .inr (.inr rfl)
  | kill t => exact h.woken woken_kill

end OsLabs.Xv6Pipe
