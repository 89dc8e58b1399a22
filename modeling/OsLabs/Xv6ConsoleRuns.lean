import OsLabs.Xv6ConsoleLines

/-!
# The Runs of the Console

What those who type and read can rely on, in every run from the start: any number of readers,
interrupts and kills at any time, and counters that may wrap.

## Main results

* `discipline`: the readers get the bytes of the completed lines in order, and the rest of
  the buffer is the line that is edited.
* `read_returns`: what a read returns, why it is short, and when it fails.
* `reader_asleep`: a sleeping reader has nothing to read, and there is room to type.
-/

namespace OsLabs.Xv6Console

variable {Tid : Type} [DecidableEq Tid]
variable {s s' : State Tid} {as : List (Act Tid)} {a : Act Tid} {buf : ℕ → UInt8}

/-- The bytes that the call in progress has taken, and whether it has delivered them. -/
def Act.movedBy (t : Tid) (m : List (UInt8 × Bool)) : Act Tid → List (UInt8 × Bool)
  | call u _ => if u = t then [] else m
  | read u taken _ => if u = t then m ++ taken else m
  | intr _ | kill _ => m

/-- The bytes that the last call of `t` has taken so far. -/
def moved (t : Tid) (as : List (Act Tid)) : List (UInt8 × Bool) := as.foldl (Act.movedBy t) []

/-- What a call has taken is brought up to date by each event. -/
theorem moved_append_singleton (t : Tid) (as : List (Act Tid)) (a : Act Tid) :
    moved t (as ++ [a]) = a.movedBy t (moved t as) := by
  rw [moved, List.foldl_append]
  rfl

/-- **The invariant of the console** after the events `as`: the buffer has the lines that were
typed, the readers have taken the first bytes of them, nobody sleeps beside a completed line, and
each call has counted what it has delivered. -/
structure Inv (as : List (Act Tid)) (s : State Tid) : Prop where
  cons : ConsInv s.cons
  agrees : Agrees (replay as) s.cons
  takes : takes as = (replay as).completed.take (replay as).taken
  asleep : ∀ t n target, s.pc t = .asleep n target → s.cons.r = s.cons.w
  calls : ∀ t n target, s.pc t = .enters n target ∨ s.pc t = .asleep n target →
    Plain (moved t as) ∧ (moved t as).length + n = target

/-- They hold at the start, when nothing has been typed. -/
theorem inv_init : Inv [] (init buf : State Tid) where
  cons := ⟨by simp [init], fun _ => rfl, by simp [init, Cons.line]⟩
  agrees :=
    ⟨by simp [init, Cons.ready, replay], by simp [init, Cons.line, replay], by simp [replay]⟩
  takes := rfl
  asleep := by simp [init]
  calls := by simp [init]

omit [DecidableEq Tid] in
/-- The last event acts on what those before it have made of the lines. -/
theorem replay_append_singleton (as : List (Act Tid)) (a : Act Tid) :
    replay (as ++ [a]) = (match a with
      | .intr c => (replay as).type c
      | .read _ taken _ => { replay as with taken := (replay as).taken + taken.length }
      | .call _ _ | .kill _ => replay as) := by
  rw [replay, List.foldl_append]
  rfl

omit [DecidableEq Tid] in
/-- The last event adds what it has taken. -/
theorem takes_append_singleton (as : List (Act Tid)) (a : Act Tid) :
    takes (as ++ [a]) = takes as ++ (match a with
      | .read _ taken _ => taken.map Prod.fst
      | _ => []) := by
  rw [takes, List.flatMap_append, List.flatMap_singleton]
  rfl

/-- Who goes back into its loop after a wakeup was there, or slept. -/
theorem Pc.wake_cases {p : Pc} {n target : ℕ} (h : p.wake = .enters n target) :
    p = .enters n target ∨ p = .asleep n target := by
  cases p with
  | outside => exact nomatch h
  | enters n' target' => exact .inl h
  | asleep n' target' => exact .inr (by cases h; rfl)

/-- After a wakeup nobody sleeps any more. -/
theorem Pc.wake_ne (p : Pc) (n target : ℕ) : p.wake ≠ .asleep n target := by
  cases p <;> exact nofun

/-- **Every event keeps the invariant.** A key that completes a line wakes the readers, so that
none of them sleeps beside it. -/
theorem Inv.step (h : Inv as s) (hstep : Step s a s') : Inv (as ++ [a]) s' := by
  cases hstep with
  | intr c =>
    obtain ⟨hagrees, hcons⟩ := h.agrees.type h.cons c
    refine ⟨hcons, ?_, ?_, fun t n target ht => ?_, fun t n target ht => ?_⟩
    · rw [replay_append_singleton]
      exact hagrees
    · obtain ⟨more, hmore, htaken⟩ := type_completed (replay as) c
      rw [takes_append_singleton, replay_append_singleton, List.append_nil, h.takes, hmore,
        htaken, List.take_append_of_le_length h.agrees.taken]
    · cases hwake : (s.cons.consoleintr c).2.2 with
      | true =>
        simp only [hwake, if_true] at ht
        exact absurd ht (Pc.wake_ne _ _ _)
      | false =>
        simp only [hwake, Bool.false_eq_true, if_false] at ht
        obtain ⟨hr, hw⟩ := consoleintr_quiet hwake
        exact hr.trans ((h.asleep t n target ht).trans hw.symm)
    · rw [moved_append_singleton]
      refine h.calls t n target ?_
      cases hwake : (s.cons.consoleintr c).2.2 with
      | true =>
        simp only [hwake, if_true] at ht
        exact Pc.wake_cases (ht.resolve_right (Pc.wake_ne _ _ _))
      | false => simpa only [hwake, Bool.false_eq_true, if_false] using ht
  | call t n ht =>
    refine ⟨h.cons, ?_, ?_, fun u m target hu => ?_, fun u m target hu => ?_⟩
    · rw [replay_append_singleton]
      exact h.agrees
    · rw [takes_append_singleton, replay_append_singleton, List.append_nil, h.takes]
    · by_cases hut : u = t
      · subst hut
        simp only [Function.update_self, reduceCtorEq] at hu
      · simp only [Function.update_of_ne hut] at hu
        exact h.asleep u m target hu
    · rw [moved_append_singleton, Act.movedBy]
      by_cases hut : u = t
      · subst hut
        simp only [Function.update_self] at hu
        obtain ⟨rfl, rfl⟩ := Pc.enters.inj (hu.resolve_right nofun)
        rw [if_pos rfl]
        exact ⟨nofun, Nat.zero_add _⟩
      · rw [if_neg (Ne.symm hut)]
        simp only [Function.update_of_ne hut] at hu
        exact h.calls u m target hu
  | kill t =>
    refine ⟨h.cons, ?_, ?_, fun u m target hu => ?_, fun u m target hu => ?_⟩
    · rw [replay_append_singleton]
      exact h.agrees
    · rw [takes_append_singleton, replay_append_singleton, List.append_nil, h.takes]
    · by_cases hut : u = t
      · subst hut
        simp only [Function.update_self] at hu
        exact absurd hu (Pc.wake_ne _ _ _)
      · simp only [Function.update_of_ne hut] at hu
        exact h.asleep u m target hu
    · rw [moved_append_singleton]
      by_cases hut : u = t
      · subst hut
        simp only [Function.update_self] at hu
        exact h.calls u m target (Pc.wake_cases (hu.resolve_right (Pc.wake_ne _ _ _)))
      · simp only [Function.update_of_ne hut] at hu
        exact h.calls u m target hu
  | read t n target ok ht =>
    obtain ⟨hm, hlen⟩ := h.calls t n target (.inl ht)
    obtain ⟨hagrees, hcons⟩ := h.agrees.read h.cons target n (s.killed t) ok
    obtain ⟨hsleeps, -⟩ := readLoop_stop s.cons (s.killed t) ok hm hlen
    obtain ⟨-, hw, -, htakes⟩ := readLoop_takes s.cons target n (s.killed t) ok
    generalize s.cons.readLoop target (s.killed t) ok n = res at hagrees hcons hsleeps hw htakes ⊢
    refine ⟨hcons, ?_, ?_, fun u m target' hu => ?_, fun u m target' hu => ?_⟩
    · rw [replay_append_singleton]
      exact hagrees
    · rw [takes_append_singleton, replay_append_singleton, h.takes]
      dsimp only
      rw [List.take_add, h.agrees.ready, ← htakes, List.take_left' (List.length_map _)]
    · by_cases hut : u = t
      · subst hut
        simp only [Function.update_self] at hu
        cases hstop : res.2.2 with
        | returns v => rw [hstop] at hu; exact nomatch hu
        | sleeps k => exact (hsleeps k hstop).2.2.trans hw.symm
      · -- Nothing was left to take.
        simp only [Function.update_of_ne hut] at hu
        have hnil : s.cons.ready = [] := ringContents_eq_nil.2 (h.asleep u m target' hu)
        rw [hnil, List.append_eq_nil_iff] at htakes
        exact ringContents_eq_nil.1 htakes.2
    · rw [moved_append_singleton, Act.movedBy]
      by_cases hut : u = t
      · subst hut
        rw [if_pos rfl]
        simp only [Function.update_self] at hu
        cases hstop : res.2.2 with
        | returns v => rw [hstop] at hu; exact nomatch hu
        | sleeps k =>
          rw [hstop] at hu
          obtain ⟨rfl, rfl⟩ := Pc.asleep.inj (hu.resolve_left nofun)
          exact ⟨(hsleeps k hstop).1, (hsleeps k hstop).2.1⟩
      · rw [if_neg (Ne.symm hut)]
        simp only [Function.update_of_ne hut] at hu
        exact h.calls u m target' hu

/-- The invariant holds after every run. -/
theorem inv_run (h : Runs Step (init buf) as s) : Inv as s :=
  h.invariant_labels inv_init fun _ _ _ _ => Inv.step

/-- **The line discipline**: the readers have taken the bytes of the completed lines in order,
those left are ready, and the rest of the buffer is the line that is edited. -/
theorem discipline (h : Runs Step (init buf) as s) :
    takes as ++ s.cons.ready = (replay as).completed ∧ s.cons.line = (replay as).line ∧
      (replay as).taken = (takes as).length ∧
      s.cons.ready.length + s.cons.line.length ≤ INPUT_BUF_SIZE := by
  have hinv := inv_run h
  refine ⟨?_, hinv.agrees.line.symm, ?_, ?_⟩
  · rw [hinv.takes, ← hinv.agrees.ready, List.take_append_drop]
  · rw [hinv.takes, List.length_take_of_le hinv.agrees.taken]
  · rw [Cons.ready, Cons.line, length_ringContents, length_ringContents]
    exact hinv.cons.room

/-- "hi" has been typed as "ho", backspace, "i", and one byte has been read. -/
theorem discipline_edited : ∃ (as : List (Act (Fin 1))) (s : State (Fin 1)),
    Runs Step (init fun _ => 0) as s ∧ takes as = [104] ∧
      (takes as ++ s.cons.ready = (replay as).completed ∧ s.cons.line = (replay as).line ∧
        (replay as).taken = (takes as).length ∧
        s.cons.ready.length + s.cons.line.length ≤ INPUT_BUF_SIZE) := by
  have hnil : Runs Step (init fun _ => 0 : State (Fin 1)) [] _ := .nil
  have hrun := hnil.snoc (.intr 104) |>.snoc (.intr 111) |>.snoc (.intr 8) |>.snoc (.intr 105)
    |>.snoc (.intr 13) |>.snoc (.intr 120) |>.snoc (.call 0 1 rfl)
    |>.snoc (.read 0 1 1 (fun _ => true) rfl)
  exact ⟨_, _, hrun, rfl, discipline hrun⟩

/-- **What a read returns** is the number of bytes that it has delivered, which are no more
than one line, and a short read has a reason; or else it is -1, and then the process has been
killed and nothing is left to read. -/
theorem read_returns {t : Tid} {n target : ℕ} {taken : List (UInt8 × Bool)} {v : ℤ}
    (h : Runs Step (init buf) as s) (ht : s.pc t = .enters n target)
    (hstep : Step s (.read t taken (.returns v)) s') :
    (v = -1 ∧ s.killed t = true ∧ s'.cons.ready = []) ∨
      Returned target (moved t as ++ taken) s'.cons.ready v := by
  have hinv := inv_run h
  obtain ⟨hm, hlen⟩ := hinv.calls t n target (.inl ht)
  generalize hact : Act.read t taken (.returns v) = a at hstep
  cases hstep with
  | intr c => cases hact
  | call u k hu => cases hact
  | kill u => cases hact
  | read u n' target' ok hu =>
    obtain ⟨rfl, rfl, hstop⟩ := Act.read.inj hact
    obtain ⟨rfl, rfl⟩ := Pc.enters.inj (ht.symm.trans hu)
    exact (readLoop_stop s.cons (s.killed t) ok hm hlen).2 v hstop.symm

/-- A read of 5 bytes gets the line "a" with its newline, after it has slept, although its
process has been killed; the next one then fails. -/
theorem read_returns_killed : ∃ (as bs : List (Act (Fin 1))) (s s' u u' : State (Fin 1))
    (taken : List (UInt8 × Bool)),
    Runs Step (init fun _ => 0) as s ∧ s.pc 0 = .enters 5 5 ∧ s.killed 0 = true ∧
      Step s (.read 0 taken (.returns 2)) s' ∧
      Runs Step (init fun _ => 0) bs u ∧ u.pc 0 = .enters 5 5 ∧
      Step u (.read 0 [] (.returns (-1))) u' ∧
      (((2 : ℤ) = -1 ∧ s.killed 0 = true ∧ s'.cons.ready = []) ∨
        Returned 5 (moved 0 as ++ taken) s'.cons.ready 2) ∧
      (((-1 : ℤ) = -1 ∧ u.killed 0 = true ∧ u'.cons.ready = []) ∨
        Returned 5 (moved 0 bs ++ []) u'.cons.ready (-1)) := by
  have hnil : Runs Step (init fun _ => 0 : State (Fin 1)) [] _ := .nil
  have hrun := hnil.snoc (.call 0 5 rfl) |>.snoc (.read 0 5 5 (fun _ => true) rfl)
    |>.snoc (.intr 97) |>.snoc (.kill 0) |>.snoc (.intr 10)
  have hrun' := hrun.snoc (.read 0 5 5 (fun _ => true) rfl) |>.snoc (.call 0 5 rfl)
  exact ⟨_, _, _, _, _, _, _, hrun, rfl, rfl, .read 0 5 5 (fun _ => true) rfl, hrun', rfl,
    .read 0 5 5 (fun _ => true) rfl,
    read_returns (n := 5) hrun rfl (.read 0 5 5 (fun _ => true) rfl),
    read_returns (n := 5) hrun' rfl (.read 0 5 5 (fun _ => true) rfl)⟩

/-- **No lost wakeup and no deadlock with the typist**: a sleeping reader has found the buffer
without a completed line, which it still is, and there is room to type. -/
theorem reader_asleep {t : Tid} {n target : ℕ} (h : Runs Step (init buf) as s)
    (ht : s.pc t = .asleep n target) :
    s.cons.ready = [] ∧ (s.cons.e - s.cons.r).toNat < INPUT_BUF_SIZE := by
  have hinv := inv_run h
  have heq := hinv.asleep t n target ht
  refine ⟨ringContents_eq_nil.2 heq, ?_⟩
  have hroom := hinv.cons.room
  have hlen := hinv.cons.length
  change ringLength s.cons.r s.cons.e < _
  refine lt_of_le_of_ne (hlen.trans_le hroom) fun hfull => ?_
  have hend := hinv.cons.full (hlen.symm.trans hfull)
  rw [hend, heq, ringLength_self] at hfull
  exact nomatch hfull

/-- A reader sleeps while a line is edited. -/
theorem reader_asleep_edited : ∃ (as : List (Act (Fin 1))) (s : State (Fin 1)),
    Runs Step (init fun _ => 0) as s ∧ s.pc 0 = .asleep 5 5 ∧
      (s.cons.ready = [] ∧ (s.cons.e - s.cons.r).toNat < INPUT_BUF_SIZE) := by
  have hnil : Runs Step (init fun _ => 0 : State (Fin 1)) [] _ := .nil
  have hrun := hnil.snoc (.intr 97) |>.snoc (.call 0 5 rfl)
    |>.snoc (.read 0 5 5 (fun _ => true) rfl)
  exact ⟨_, _, hrun, rfl, reader_asleep (t := 0) hrun (rfl : _ = Pc.asleep 5 5)⟩

end OsLabs.Xv6Console
