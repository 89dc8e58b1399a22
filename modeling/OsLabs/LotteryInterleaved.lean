import OsLabs.Lottery

/-!
# Lottery Rounds among Other CPUs

A round of `scheduler` holds at most one process lock at a time. Between two turns of its
passes other CPUs and interrupts change the process table, so the dispatch pass may find
fewer tickets than the counting pass has added up, and the ticket drawn may belong to
nobody. This module runs the round of `OsLabs.Lottery` in such an environment and says
exactly when it finds work that is there.

Conventions: what happens before the turn of a slot in one of the passes, before the
draw, and while a process runs, are four arbitrary functions (`Env`). What happens while
the scheduler holds the lock of a slot does not touch that slot, and the turn reads
nothing else; it is part of the next change.

## Main results

* `Round.Idle.foldl_turn`: the dispatch pass up to its first switch.
* `work_conserving_iff`: a round that finds a runnable slot switches to a process, and
  does not wait for an interrupt, if and only if the tickets it finds exceed the ticket
  drawn.
* `workConserving_of_share_le`: this is so when no slot loses tickets after it has been
  counted.
* `roundRobin_work_conserving`: the scheduler of `proc.c` always does so.
* `idle_beside_runnable`: a lottery round that waits beside a runnable process.
-/

namespace OsLabs.Lottery

variable {nproc : ℕ}

/-- The changes that other CPUs and interrupts make. -/
structure Env (nproc : ℕ) where
  count : Fin nproc → Kernel nproc → Kernel nproc
  draw : Kernel nproc → Kernel nproc
  dispatch : Fin nproc → Kernel nproc → Kernel nproc
  swtch : Fin nproc → Kernel nproc → Kernel nproc

/-- The variables of the dispatch pass, the shares of the slots that it found runnable,
and whether the CPU executes `wfi` at the end of the round. -/
structure Round (nproc : ℕ) where
  pass : Pass nproc
  seen : List ℕ
  wfi : Bool

namespace Env

variable (env : Env nproc)

/-- One turn of the counting pass. -/
def countTurn (s : Kernel nproc × ℕ) (p : Fin nproc) : Kernel nproc × ℕ :=
  let k := env.count p s.1
  (k, if (k.proc p).state = .runnable then s.2 + (k.proc p).tickets else s.2)

/-- The counting pass: the kernel after it and the total. -/
def counted (k : Kernel nproc) : Kernel nproc × ℕ :=
  (List.finRange nproc).foldl env.countTurn (k, 0)

/-- One turn of the dispatch pass, at the lock of slot `p`. -/
def turn (winningTicket : ℕ) (r : Round nproc) (p : Fin nproc) : Round nproc :=
  let s := { r.pass with kernel := env.dispatch p r.pass.kernel }
  { r with
    pass := s.visit env.swtch winningTicket p
    seen := if (s.kernel.proc p).state = .runnable
      then r.seen ++ [(s.kernel.proc p).tickets] else r.seen }

/-- The kernel at the draw. -/
def drawn (k : Kernel nproc) : Kernel nproc := env.draw (env.counted k).1

/-- The winning ticket of the round. -/
def winningTicket (k : Kernel nproc) : ℕ := (rand (env.drawn k).seed).1 % (env.counted k).2

/-- The dispatch pass before its first turn. -/
def start (c : Cpu nproc) (k : Kernel nproc) : Round nproc :=
  ⟨⟨{ env.drawn k with seed := (rand (env.drawn k).seed).2 }, c, 0, false, []⟩, [], false⟩

/-- One iteration of the `for(;;)` loop of `scheduler` of `proc_our.c`. -/
def round (c : Cpu nproc) (k : Kernel nproc) : Round nproc :=
  if (env.counted k).2 = 0 then
    ⟨⟨(env.counted k).1, c, 0, false, []⟩, [], true⟩
  else
    let r := (List.finRange nproc).foldl (env.turn (env.winningTicket k)) (env.start c k)
    { r with wfi := !r.pass.found }

/-- One turn of the round-robin scheduler of `proc.c`. -/
def roundRobinTurn (r : Round nproc) (p : Fin nproc) : Round nproc :=
  let s := { r.pass with kernel := env.dispatch p r.pass.kernel }
  if (s.kernel.proc p).state = .runnable then
    let kernel := env.swtch p (s.kernel.setState p .running)
    { r with
      pass := { s with kernel, cpu := { s.cpu with proc := none }, found := true,
                       dispatched := s.dispatched ++ [p] }
      seen := r.seen ++ [(s.kernel.proc p).tickets] }
  else
    { r with pass := s }

/-- One iteration of the `for(;;)` loop of `scheduler` of `proc.c`. -/
def roundRobin (c : Cpu nproc) (k : Kernel nproc) : Round nproc :=
  let r := (List.finRange nproc).foldl env.roundRobinTurn ⟨⟨k, c, 0, false, []⟩, [], false⟩
  { r with wfi := !r.pass.found }

end Env

/-- **Work conservation** of a round: if it found a runnable slot, it has switched to a
process and does not wait for an interrupt. -/
def Round.WorkConserving (r : Round nproc) : Prop :=
  r.seen ≠ [] → r.pass.found = true ∧ r.pass.dispatched ≠ [] ∧ r.wfi = false

/-! ### The tickets found -/

namespace Env

variable (env : Env nproc)

/-- The shares that the turns of the slots `l` find, from kernel `k` on, as long as no
process has been switched to: those of the runnable slots. -/
def idleShares : List (Fin nproc) → Kernel nproc → List ℕ
  | [], _ => []
  | p :: l, k =>
    let k := env.dispatch p k
    if (k.proc p).state = .runnable then (k.proc p).tickets :: idleShares l k
    else idleShares l k

/-- The shares that the dispatch pass of a round finds before its first switch, and those
it would go on to find without one. -/
def shares (c : Cpu nproc) (k : Kernel nproc) : List ℕ :=
  env.idleShares (List.finRange nproc) (env.start c k).pass.kernel

end Env

namespace Round

variable {env : Env nproc} {w : ℕ}

/-- The facts of a dispatch pass that has not switched to any process: what it has added up, and
that nothing was found. -/
structure Idle (w : ℕ) (r : Round nproc) : Prop where
  found : r.pass.found = false
  current : r.pass.currentTicket = r.seen.sum
  le : r.seen.sum ≤ w

/-- Once a process has been switched to, the pass has found one. -/
theorem foldl_turn_found (l : List (Fin nproc)) {r : Round nproc}
    (h : r.pass.found = true ∧ r.pass.dispatched ≠ []) :
    (l.foldl (env.turn w) r).pass.found = true ∧
      (l.foldl (env.turn w) r).pass.dispatched ≠ [] := by
  induction l generalizing r with
  | nil => exact h
  | cons p l ih =>
      refine ih ?_
      simp only [Env.turn, Pass.visit]
      split
      · split
        · exact ⟨rfl, by simp [Pass.dispatch]⟩
        · exact h
      · exact h

/-- The turn of a slot that is not runnable. -/
theorem turn_of_not_runnable {r : Round nproc} {p : Fin nproc}
    (hrun : ((env.dispatch p r.pass.kernel).proc p).state ≠ .runnable) :
    env.turn w r p = { r with pass := { r.pass with kernel := env.dispatch p r.pass.kernel } } := by
  rw [Env.turn]
  simp only [if_neg hrun]
  rw [Pass.visit, if_neg hrun]

/-- The turn of a runnable slot that holds the winning ticket. -/
theorem Idle.turn_win {r : Round nproc} (h : r.Idle w) {p : Fin nproc}
    (hrun : ((env.dispatch p r.pass.kernel).proc p).state = .runnable)
    (hwin : w < r.seen.sum + ((env.dispatch p r.pass.kernel).proc p).tickets) :
    (env.turn w r p).pass.found = true ∧ (env.turn w r p).pass.dispatched ≠ [] := by
  rw [Env.turn]
  simp only
  rw [Pass.visit_of_lt hrun (by simpa only [h.current] using hwin)]
  exact ⟨rfl, by simp [Pass.dispatch]⟩

/-- The turn of a runnable slot before the winning ticket. -/
theorem Idle.turn_lose {r : Round nproc} (h : r.Idle w) {p : Fin nproc}
    (hrun : ((env.dispatch p r.pass.kernel).proc p).state = .runnable)
    (hlose : r.seen.sum + ((env.dispatch p r.pass.kernel).proc p).tickets ≤ w) :
    env.turn w r p =
      ⟨{ r.pass with
          kernel := env.dispatch p r.pass.kernel
          currentTicket := r.pass.currentTicket +
            ((env.dispatch p r.pass.kernel).proc p).tickets },
        r.seen ++ [((env.dispatch p r.pass.kernel).proc p).tickets], r.wfi⟩ := by
  rw [Env.turn]
  simp only [if_pos hrun]
  rw [Pass.visit, if_pos hrun, if_neg (by simp only [h.current]; omega)]

/-- **The dispatch pass up to its first switch**: it switches to a process if the tickets
it finds exceed the winning one, and otherwise it has found exactly them. Induction on
the slots ahead. -/
theorem Idle.foldl_turn {r : Round nproc} (h : r.Idle w) (env : Env nproc)
    (l : List (Fin nproc)) :
    (w < r.seen.sum + (env.idleShares l r.pass.kernel).sum →
      (l.foldl (env.turn w) r).pass.found = true ∧
        (l.foldl (env.turn w) r).pass.dispatched ≠ []) ∧
    (r.seen.sum + (env.idleShares l r.pass.kernel).sum ≤ w →
      (l.foldl (env.turn w) r).pass.found = false ∧
        (l.foldl (env.turn w) r).seen = r.seen ++ env.idleShares l r.pass.kernel) := by
  induction l generalizing r with
  | nil =>
      have hle := h.le
      refine ⟨fun hlt => ?_, fun _ => ⟨h.found, by simp [Env.idleShares]⟩⟩
      simp only [Env.idleShares, List.sum_nil] at hlt
      omega
  | cons p l ih =>
      rw [List.foldl_cons, Env.idleShares]
      by_cases hrun : ((env.dispatch p r.pass.kernel).proc p).state = .runnable
      · simp only [if_pos hrun, List.sum_cons]
        by_cases hwin : w < r.seen.sum + ((env.dispatch p r.pass.kernel).proc p).tickets
        · -- this turn switches to the slot
          exact ⟨fun _ => foldl_turn_found l (h.turn_win hrun hwin), fun hle => by omega⟩
        · have hturn := h.turn_lose hrun (not_lt.mp hwin)
          have hidle : (env.turn w r p).Idle w := by
            rw [hturn]
            refine ⟨h.found, ?_, ?_⟩
            · simp [h.current]
            · simp only [List.sum_append, List.sum_singleton]
              omega
          have hrest := ih hidle
          rw [hturn] at hrest ⊢
          simpa only [List.sum_append, List.sum_singleton, Nat.add_assoc, List.append_assoc,
            List.singleton_append] using hrest
      · have hturn := turn_of_not_runnable (w := w) hrun
        have hidle : (env.turn w r p).Idle w := by
          rw [hturn]
          exact ⟨h.found, h.current, h.le⟩
        have hrest := ih hidle
        rw [hturn] at hrest ⊢
        simpa only [if_neg hrun] using hrest

end Round

/-! ### Work conservation -/

/-- Without tickets there is no dispatch pass. -/
theorem workConserving_of_total_zero (env : Env nproc) (c : Cpu nproc) {k : Kernel nproc}
    (h : (env.counted k).2 = 0) : (env.round c k).WorkConserving := by
  rw [Env.round, if_pos h]
  exact fun hseen => absurd rfl hseen

/-- At its start the dispatch pass has neither found nor dispatched anybody. -/
theorem idle_start (env : Env nproc) (c : Cpu nproc) (k : Kernel nproc) :
    (env.start c k).Idle (env.winningTicket k) := ⟨rfl, rfl, Nat.zero_le _⟩

/-- If the tickets it finds exceed the ticket drawn, the dispatch pass meets the winner and
switches to it. -/
theorem workConserving_of_lt {env : Env nproc} {c : Cpu nproc} {k : Kernel nproc}
    (hlt : env.winningTicket k < (env.shares c k).sum) : (env.round c k).WorkConserving := by
  by_cases htotal : (env.counted k).2 = 0
  · exact workConserving_of_total_zero env c htotal
  obtain ⟨hwin, -⟩ := (idle_start env c k).foldl_turn env (List.finRange nproc)
  have hseen : (env.start c k).seen = [] := rfl
  rw [hseen, List.sum_nil, Nat.zero_add] at hwin
  obtain ⟨hfound, hdispatched⟩ := hwin hlt
  rw [Env.round, if_neg htotal]
  exact fun _ => ⟨hfound, hdispatched, by simp only [hfound, Bool.not_true]⟩

/-- **When a lottery round is work-conserving**, in any environment: if and only if there
was no ticket to draw, the dispatch pass finds no runnable slot, or the tickets it finds
on runnable slots exceed the winning one. -/
theorem work_conserving_iff (env : Env nproc) (c : Cpu nproc) (k : Kernel nproc) :
    (env.round c k).WorkConserving ↔
      (env.counted k).2 = 0 ∨ env.shares c k = [] ∨
        env.winningTicket k < (env.shares c k).sum := by
  by_cases htotal : (env.counted k).2 = 0
  · exact iff_of_true (workConserving_of_total_zero env c htotal) (Or.inl htotal)
  by_cases hlt : env.winningTicket k < (env.shares c k).sum
  · exact iff_of_true (workConserving_of_lt hlt) (Or.inr (Or.inr hlt))
  obtain ⟨-, hlose⟩ := (idle_start env c k).foldl_turn env (List.finRange nproc)
  have hseen : (env.start c k).seen = [] := rfl
  rw [hseen, List.sum_nil, Nat.zero_add, List.nil_append] at hlose
  obtain ⟨hfound, hshares⟩ := hlose (not_lt.mp hlt)
  rw [Env.round, if_neg htotal, Round.WorkConserving, hfound, hshares]
  simp only [htotal, false_or]
  constructor
  · intro h
    by_contra hnot
    rw [not_or] at hnot
    exact absurd (h hnot.1).1 (by decide)
  · rintro (hnil | hlt')
    · exact fun hne => absurd hnil hne
    · exact absurd hlt' hlt

/-- What the slots `l` hold when a pass locks them in turn. -/
def lockShares (change : Fin nproc → Kernel nproc → Kernel nproc) :
    List (Fin nproc) → Kernel nproc → List ℕ
  | [], _ => []
  | p :: l, k => (change p k).share p :: lockShares change l (change p k)

/-- A turn of the counting pass adds the share of the slot. -/
theorem Env.countTurn_eq (env : Env nproc) (s : Kernel nproc × ℕ) (p : Fin nproc) :
    env.countTurn s p = (env.count p s.1, s.2 + (env.count p s.1).share p) := by
  rw [Env.countTurn, Kernel.share]
  split <;> rfl

/-- The counting pass adds up what it sees at the locks. -/
theorem counted_eq_sum (env : Env nproc) (k : Kernel nproc) :
    (env.counted k).2 = (lockShares env.count (List.finRange nproc) k).sum := by
  have hfold : ∀ (l : List (Fin nproc)) (k : Kernel nproc) (total : ℕ),
      (l.foldl env.countTurn (k, total)).2 = total + (lockShares env.count l k).sum := by
    intro l
    induction l with
    | nil => exact fun k total => rfl
    | cons p l ih =>
        intro k total
        rw [List.foldl_cons, env.countTurn_eq, ih, lockShares, List.sum_cons, Nat.add_assoc]
  rw [Env.counted, hfold, Nat.zero_add]

/-- The dispatch pass up to its first switch adds up what it sees at the locks. -/
theorem idleShares_sum (env : Env nproc) (l : List (Fin nproc)) (k : Kernel nproc) :
    (env.idleShares l k).sum = (lockShares env.dispatch l k).sum := by
  induction l generalizing k with
  | nil => rfl
  | cons p l ih =>
      rw [lockShares, List.sum_cons, ← ih, Env.idleShares, Kernel.share]
      split
      · rw [List.sum_cons]
      · rw [Nat.zero_add]

/-- A round is work-conserving if no slot holds fewer tickets at its turn in the dispatch
pass than it was counted with. -/
theorem workConserving_of_share_le (env : Env nproc) (c : Cpu nproc) (k : Kernel nproc)
    (h : List.Forall₂ (· ≤ ·) (lockShares env.count (List.finRange nproc) k)
      (lockShares env.dispatch (List.finRange nproc) (env.start c k).pass.kernel)) :
    (env.round c k).WorkConserving := by
  rcases Nat.eq_zero_or_pos (env.counted k).2 with hzero | hpos
  · exact workConserving_of_total_zero env c hzero
  · refine workConserving_of_lt ?_
    calc env.winningTicket k < (env.counted k).2 := Nat.mod_lt _ hpos
      _ = (lockShares env.count (List.finRange nproc) k).sum := counted_eq_sum env k
      _ ≤ (lockShares env.dispatch (List.finRange nproc)
            (env.start c k).pass.kernel).sum := List.Forall₂.sum_le_sum h
      _ = (env.shares c k).sum := (idleShares_sum env _ _).symm

/-- **The round-robin scheduler of `proc.c` is work-conserving** in any environment. -/
theorem roundRobin_work_conserving (env : Env nproc) (c : Cpu nproc) (k : Kernel nproc) :
    (env.roundRobin c k).WorkConserving := by
  have hfold : ∀ (l : List (Fin nproc)) (r : Round nproc),
      (r.seen ≠ [] → r.pass.found = true ∧ r.pass.dispatched ≠ []) →
      (l.foldl env.roundRobinTurn r).seen ≠ [] →
        (l.foldl env.roundRobinTurn r).pass.found = true ∧
          (l.foldl env.roundRobinTurn r).pass.dispatched ≠ [] := by
    intro l
    induction l with
    | nil => exact fun r h => h
    | cons p l ih =>
        intro r h
        refine ih _ ?_
        simp only [Env.roundRobinTurn]
        split
        · exact fun _ => ⟨rfl, by simp⟩
        · exact h
  intro hseen
  obtain ⟨hfound, hdispatched⟩ := hfold _ _ (fun hne => absurd rfl hne) hseen
  refine ⟨hfound, hdispatched, ?_⟩
  rw [Env.roundRobin]
  simp only [hfound, Bool.not_true]

/-- Another CPU starts to run the process of slot 0 after it has been counted. -/
def stolen : Env 64 where
  count _ k := k
  draw k := k
  dispatch p k := if (p : ℕ) = 0 then k.setState p .running else k
  swtch := yieldBack

/-- **The defect**: two runnable processes with 50 tickets each are counted and ticket 67
is drawn; another CPU takes the first process before the dispatch pass. The pass finds
the second process runnable, with 50 tickets, switches to no process, and the CPU waits
for an interrupt. -/
theorem idle_beside_runnable :
    (stolen.counted { twoRunnable with seed := 1015568748 }).2 = 100 ∧
      stolen.winningTicket { twoRunnable with seed := 1015568748 } = 67 ∧
      (stolen.round ⟨0, none, 0, []⟩ { twoRunnable with seed := 1015568748 }).seen = [50] ∧
      (stolen.round ⟨0, none, 0, []⟩ { twoRunnable with seed := 1015568748 }).wfi = true ∧
      ¬ (stolen.round ⟨0, none, 0, []⟩
        { twoRunnable with seed := 1015568748 }).WorkConserving := by
  have hseen : (stolen.round ⟨0, none, 0, []⟩
      { twoRunnable with seed := 1015568748 }).seen = [50] := by decide +kernel
  have hwfi : (stolen.round ⟨0, none, 0, []⟩
      { twoRunnable with seed := 1015568748 }).wfi = true := by decide +kernel
  refine ⟨by decide +kernel, by decide +kernel, hseen, hwfi, fun h => ?_⟩
  obtain ⟨-, -, hno⟩ := h (by rw [hseen]; exact List.cons_ne_nil _ _)
  rw [hwfi] at hno
  exact absurd hno (by decide)

end OsLabs.Lottery
