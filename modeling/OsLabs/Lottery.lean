import Mathlib

/-!
# The Lottery Scheduler

`xv6/kernel/proc_our.c` replaces the round-robin scheduler of xv6 by a lottery. A round
of `scheduler` counts the tickets of the runnable processes, draws a winning ticket, and
walks the process table a second time, adding up tickets until they exceed the winning
one. The walk does not stop there: the sum stays above the winning ticket, so every
later slot that is runnable when its turn comes is switched to as well.

Conventions: the table has `nproc` slots, `NPROC` in the source. Whatever happens
between the switch to a process and its return to the scheduler is a parameter `swtch`,
an arbitrary change of the table and of the seed. Between the lock sections of the two
passes the table is frozen here; what other CPUs and interrupts do to it there is the
subject of `OsLabs.LotteryInterleaved`. The sums of tickets are exact; the
source adds `int`s that never leave `[0, 99 * NPROC]`, since `allocproc` and `freeproc`
are the only functions that set `tickets`.

## Main results

* `Kernel.exists_holder`, `Kernel.Holds.unique`: every ticket has exactly one holder.
* `Pass.foldl_visit_finRange`: the dispatch pass from the holder of the winning ticket on.
* `one_winner_iff`: a round switches to at most one process if and only if no slot after
  the holder of the winning ticket is runnable when the holder switches back.
* `two_winners`: a round of two runnable processes that switches to both.
-/

namespace OsLabs.Lottery

/-! ### Processes -/

/-- `enum procstate`. -/
inductive ProcState where
  | unused
  | used
  | sleeping
  | runnable
  | running
  | zombie
deriving DecidableEq

/-- The fields of `struct proc` that the scheduler reads. -/
structure Proc (nproc : ℕ) where
  state : ProcState
  pid : ℤ
  parent : Option (Fin nproc)
  name : String
  priority : ℤ
  tickets : ℕ

/-- The process table and the seed of `rand`. -/
structure Kernel (nproc : ℕ) where
  proc : Fin nproc → Proc nproc
  seed : UInt32

/-- The line printed at every third context switch. -/
structure ThirdSwitch where
  cpuid : ℕ
  procType : String
  name : String
  pid : ℤ
  parentPid : ℤ
  priority : ℤ

/-- The fields of `struct cpu` that the scheduler uses, with the lines it has printed. -/
structure Cpu (nproc : ℕ) where
  cpuid : ℕ
  proc : Option (Fin nproc)
  contextSwitches : ℕ
  printed : List ThirdSwitch

variable {nproc : ℕ}

/-- `rand`: the next seed, and its lower 31 bits. -/
def rand (seed : UInt32) : ℕ × UInt32 :=
  let seed := seed * 1664525 + 1013904223
  ((seed &&& 0x7FFFFFFF).toNat, seed)

/-- The number returned is the new seed without its upper bit. -/
theorem rand_fst (seed : UInt32) : (rand seed).1 = (rand seed).2.toNat % 2 ^ 31 := by
  have hmask : (0x7FFFFFFF : UInt32).toNat = 2 ^ 31 - 1 := rfl
  rw [rand]
  simp only
  rw [UInt32.toNat_and, hmask, Nat.and_two_pow_sub_one_eq_mod]

/-- A random number has 31 bits, whatever the seed was. -/
theorem rand_fst_lt (seed : UInt32) : (rand seed).1 < 2 ^ 31 := by
  rw [rand_fst]
  exact Nat.mod_lt _ (by omega)

namespace Kernel

/-- What slot `p` adds to the sums of tickets. -/
def share (k : Kernel nproc) (p : Fin nproc) : ℕ :=
  if (k.proc p).state = .runnable then (k.proc p).tickets else 0

/-- The counting pass. -/
def totalTickets (k : Kernel nproc) : ℕ :=
  (List.finRange nproc).foldl
    (fun total p =>
      if (k.proc p).state = .runnable then total + (k.proc p).tickets else total) 0

/-- `p->state = state`. -/
def setState (k : Kernel nproc) (p : Fin nproc) (state : ProcState) : Kernel nproc :=
  { k with proc := Function.update k.proc p { k.proc p with state } }

end Kernel

/-! ### One round -/

/-- The variables of the dispatch pass; `dispatched` lists the slots switched to. -/
structure Pass (nproc : ℕ) where
  kernel : Kernel nproc
  cpu : Cpu nproc
  currentTicket : ℕ
  found : Bool
  dispatched : List (Fin nproc)

/-- The bookkeeping after a process has switched back: the counter of context switches,
and the line printed at every third one. -/
def Cpu.countSwitch (c : Cpu nproc) (k : Kernel nproc) (p : Fin nproc) : Cpu nproc :=
  let n := c.contextSwitches + 1
  if n ≥ 3 then
    let line : ThirdSwitch :=
      { cpuid := c.cpuid
        procType := if (k.proc p).parent.isNone then "Kernel" else "User"
        name := (k.proc p).name
        pid := (k.proc p).pid
        parentPid := match (k.proc p).parent with
          | some q => (k.proc q).pid
          | none => 0
        priority := (k.proc p).priority }
    { c with contextSwitches := 0, printed := c.printed ++ [line] }
  else
    { c with contextSwitches := n }

section

variable (swtch : Fin nproc → Kernel nproc → Kernel nproc)

/-- The switch to process `p` and back. -/
def Pass.dispatch (s : Pass nproc) (p : Fin nproc) : Pass nproc :=
  let kernel := swtch p (s.kernel.setState p .running)
  let cpu := { s.cpu with proc := some p }
  let cpu := cpu.countSwitch kernel p
  { s with kernel, cpu := { cpu with proc := none }, found := true,
           dispatched := s.dispatched ++ [p] }

/-- One turn of the dispatch pass. -/
def Pass.visit (winningTicket : ℕ) (s : Pass nproc) (p : Fin nproc) : Pass nproc :=
  if (s.kernel.proc p).state = .runnable then
    let s := { s with currentTicket := s.currentTicket + (s.kernel.proc p).tickets }
    if s.currentTicket > winningTicket then s.dispatch swtch p else s
  else
    s

/-- One iteration of the `for(;;)` loop of `scheduler`, as the variables of its dispatch
pass at the end. Without tickets the loop goes on before the draw. -/
def round (c : Cpu nproc) (k : Kernel nproc) : Pass nproc :=
  let totalTickets := k.totalTickets
  if totalTickets = 0 then
    ⟨k, c, 0, false, []⟩
  else
    let (r, seed) := rand k.seed
    let winningTicket := r % totalTickets
    (List.finRange nproc).foldl (Pass.visit swtch winningTicket)
      ⟨{ k with seed }, c, 0, false, []⟩

end

/-! ### The draw -/

namespace Kernel

/-- The tickets of the runnable slots before `p`. -/
def ticketsBefore (k : Kernel nproc) (p : Fin nproc) : ℕ :=
  (((List.finRange nproc).take p).map k.share).sum

/-- The winning ticket of a round that starts in `k`. -/
def winningTicket (k : Kernel nproc) : ℕ := (rand k.seed).1 % k.totalTickets

/-- Slot `p` is runnable and holds ticket `w`, tickets being numbered in table order. -/
structure Holds (k : Kernel nproc) (w : ℕ) (p : Fin nproc) : Prop where
  runnable : (k.proc p).state = .runnable
  le : k.ticketsBefore p ≤ w
  lt : w < k.ticketsBefore p + (k.proc p).tickets

/-- A runnable process takes part with its tickets. -/
theorem share_of_runnable {k : Kernel nproc} {p : Fin nproc}
    (h : (k.proc p).state = .runnable) : k.share p = (k.proc p).tickets := if_pos h

/-- A process that is not runnable takes no part in the lottery. -/
theorem share_of_not_runnable {k : Kernel nproc} {p : Fin nproc}
    (h : (k.proc p).state ≠ .runnable) : k.share p = 0 := if_neg h

/-- The counting pass adds up the shares. -/
theorem totalTickets_eq (k : Kernel nproc) :
    k.totalTickets = ((List.finRange nproc).map k.share).sum := by
  have hfold : ∀ (l : List (Fin nproc)) (total : ℕ),
      l.foldl (fun total p =>
        if (k.proc p).state = .runnable then total + (k.proc p).tickets else total) total =
        total + (l.map k.share).sum := by
    intro l
    induction l with
    | nil => exact fun total => rfl
    | cons p l ih =>
        intro total
        rw [List.foldl_cons, ih, List.map_cons, List.sum_cons, share]
        split <;> omega
  rw [totalTickets, hfold, Nat.zero_add]

/-- The slots before, at and after `p`. -/
theorem finRange_eq_split (p : Fin nproc) :
    List.finRange nproc =
      (List.finRange nproc).take p ++ p :: (List.finRange nproc).drop (p + 1) := by
  have hp : (p : ℕ) < (List.finRange nproc).length := by simp
  have hdrop := List.drop_eq_getElem_cons hp
  rw [List.getElem_finRange, Fin.cast_mk, Fin.eta] at hdrop
  rw [← hdrop, List.take_append_drop]

/-- **Every ticket has a holder** among the runnable processes. -/
theorem exists_holder {k : Kernel nproc} {w : ℕ} (h : w < k.totalTickets) :
    ∃ p, k.Holds w p := by
  -- induction on the number of slots looked at
  have hfirst : ∀ n ≤ nproc, w < (((List.finRange nproc).take n).map k.share).sum →
      ∃ p, k.Holds w p := by
    intro n
    induction n with
    | zero =>
        intro _ hw
        simp at hw
    | succ n ih =>
        intro hn hw
        by_cases hlt : w < (((List.finRange nproc).take n).map k.share).sum
        · exact ih (by omega) hlt
        · have hlen : n < (List.finRange nproc).length := by
            rwa [List.length_finRange]
          rw [List.take_succ_eq_append_getElem hlen, List.map_append, List.sum_append,
            List.getElem_finRange, List.map_singleton, List.sum_singleton, Fin.cast_mk] at hw
          have hrun : (k.proc ⟨n, hn⟩).state = .runnable := by
            by_contra hne
            rw [share_of_not_runnable hne] at hw
            omega
          rw [share_of_runnable hrun] at hw
          exact ⟨⟨n, hn⟩, hrun, not_lt.mp hlt, hw⟩
  refine hfirst nproc le_rfl ?_
  rwa [List.take_of_length_le (by simp), ← totalTickets_eq]

/-- Only a ticket below the total has a holder. -/
theorem Holds.lt_totalTickets {k : Kernel nproc} {w : ℕ} {p : Fin nproc} (h : k.Holds w p) :
    w < k.totalTickets := by
  rw [totalTickets_eq, finRange_eq_split p, List.map_append, List.sum_append, List.map_cons,
    List.sum_cons, share_of_runnable h.runnable]
  have hlt := h.lt
  rw [ticketsBefore] at hlt
  omega

/-- The tickets of a holder come before those of the slots after it. -/
theorem Holds.ticketsBefore_le {k : Kernel nproc} {w : ℕ} {p q : Fin nproc}
    (h : k.Holds w p) (hpq : p < q) :
    k.ticketsBefore p + (k.proc p).tickets ≤ k.ticketsBefore q := by
  have hsplit : (List.finRange nproc).take q =
      (List.finRange nproc).take p ++ p ::
        ((List.finRange nproc).drop (p + 1)).take (q - (p + 1)) := by
    conv_lhs => rw [finRange_eq_split p]
    have hlen : ((List.finRange nproc).take p).length = p := by
      rw [List.length_take, List.length_finRange]
      omega
    rw [List.take_append, hlen, List.take_of_length_le (by omega),
      List.take_cons (by omega)]
    rfl
  rw [ticketsBefore, ticketsBefore, hsplit, List.map_append, List.sum_append,
    List.map_cons, List.sum_cons, share_of_runnable h.runnable]
  omega

/-- A ticket has only one holder: the shares of two slots do not overlap. -/
theorem Holds.unique {k : Kernel nproc} {w : ℕ} {p q : Fin nproc} (hp : k.Holds w p)
    (hq : k.Holds w q) : p = q := by
  rcases lt_trichotomy p q with hlt | heq | hgt
  · have := hp.ticketsBefore_le hlt
    have := hp.lt
    have := hq.le
    omega
  · exact heq
  · have := hq.ticketsBefore_le hgt
    have := hq.lt
    have := hp.le
    omega

/-- Holding a ticket does not depend on the seed. -/
theorem Holds.reseed {k : Kernel nproc} {w : ℕ} {p : Fin nproc} (h : k.Holds w p)
    (seed : UInt32) : { k with seed }.Holds w p := ⟨h.runnable, h.le, h.lt⟩

/-- The slots after `p` are the ones the pass still has to visit. -/
theorem mem_drop_finRange {p q : Fin nproc} :
    q ∈ (List.finRange nproc).drop (p + 1) ↔ p < q := by
  rw [List.mem_drop_iff_getElem]
  constructor
  · rintro ⟨i, hi, rfl⟩
    simp only [List.getElem_finRange, Fin.lt_def, Fin.val_cast]
    omega
  · intro hpq
    refine ⟨q - (p + 1), by rw [List.length_finRange]; omega, ?_⟩
    simp only [List.getElem_finRange, Fin.ext_iff, Fin.val_cast]
    omega

end Kernel

/-! ### The dispatch pass -/

namespace Pass

variable {swtch : Fin nproc → Kernel nproc → Kernel nproc} {w : ℕ}

/-- Up to the winning ticket a turn only adds the slot's share. -/
theorem visit_of_le {s : Pass nproc} {p : Fin nproc}
    (h : s.currentTicket + s.kernel.share p ≤ w) :
    s.visit swtch w p = { s with currentTicket := s.currentTicket + s.kernel.share p } := by
  by_cases hrun : (s.kernel.proc p).state = .runnable
  · rw [Kernel.share_of_runnable hrun] at h ⊢
    rw [visit, if_pos hrun, if_neg (not_lt.mpr h)]
  · rw [Kernel.share_of_not_runnable hrun, visit, if_neg hrun]
    rfl

/-- **Before the winning ticket** the pass only adds up the shares. -/
theorem foldl_visit_of_le (l : List (Fin nproc)) {s : Pass nproc}
    (h : s.currentTicket + (l.map s.kernel.share).sum ≤ w) :
    l.foldl (visit swtch w) s =
      { s with currentTicket := s.currentTicket + (l.map s.kernel.share).sum } := by
  induction l generalizing s with
  | nil => rfl
  | cons p l ih =>
      rw [List.map_cons, List.sum_cons] at h ⊢
      rw [List.foldl_cons, visit_of_le (by omega), ih (by simp only; omega)]
      simp only [Nat.add_assoc]

/-- A turn at a runnable slot whose tickets pass the winning one switches to it. -/
theorem visit_of_lt {s : Pass nproc} {p : Fin nproc}
    (hrun : (s.kernel.proc p).state = .runnable)
    (h : w < s.currentTicket + (s.kernel.proc p).tickets) :
    s.visit swtch w p =
      dispatch swtch
        { s with currentTicket := s.currentTicket + (s.kernel.proc p).tickets } p := by
  rw [visit, if_pos hrun, if_pos h]

/-- A turn of the dispatch pass takes no winner back. -/
theorem dispatched_length_visit (s : Pass nproc) (p : Fin nproc) :
    s.dispatched.length ≤ (s.visit swtch w p).dispatched.length := by
  rw [visit]
  split
  · simp only
    split
    · rw [dispatch, List.length_append]
      exact Nat.le_add_right _ _
    · exact le_rfl
  · exact le_rfl

/-- A pass never takes a switch back. -/
theorem dispatched_length_foldl (l : List (Fin nproc)) (s : Pass nproc) :
    s.dispatched.length ≤ (l.foldl (visit swtch w) s).dispatched.length := by
  induction l generalizing s with
  | nil => exact le_rfl
  | cons p l ih => exact (dispatched_length_visit s p).trans (ih _)

/-- **After the winning ticket** the pass ends without a further switch exactly when none
of the slots still ahead is runnable. -/
theorem dispatched_length_foldl_of_lt (l : List (Fin nproc)) {s : Pass nproc}
    (h : w < s.currentTicket) :
    (l.foldl (visit swtch w) s).dispatched.length ≤ s.dispatched.length ↔
      ∀ q ∈ l, (s.kernel.proc q).state ≠ .runnable := by
  induction l generalizing s with
  | nil => simp
  | cons p l ih =>
      rw [List.foldl_cons, List.forall_mem_cons]
      by_cases hrun : (s.kernel.proc p).state = .runnable
      · -- the slot is switched to, and the count never goes down again
        have hlen : (s.visit swtch w p).dispatched.length ≤
            (l.foldl (visit swtch w) (s.visit swtch w p)).dispatched.length :=
          dispatched_length_foldl l _
        rw [visit_of_lt hrun (by omega)] at hlen ⊢
        simp only [dispatch, List.length_append, List.length_singleton] at hlen ⊢
        exact iff_of_false (by omega) fun hno => hno.1 hrun
      · rw [visit, if_neg hrun, ih h]
        exact (and_iff_right hrun).symm

/-- **The whole pass**: it reaches the holder of the winning ticket with nothing switched
to, switches to it, and goes on with the slots after it. -/
theorem foldl_visit_finRange {s : Pass nproc} {p : Fin nproc} (hs : s.currentTicket = 0)
    (h : s.kernel.Holds w p) :
    (List.finRange nproc).foldl (visit swtch w) s =
      ((List.finRange nproc).drop (p + 1)).foldl (visit swtch w)
        (dispatch swtch { s with
          currentTicket := s.kernel.ticketsBefore p + (s.kernel.proc p).tickets } p) := by
  have hbefore : s.currentTicket +
      (((List.finRange nproc).take p).map s.kernel.share).sum = s.kernel.ticketsBefore p := by
    rw [hs, Nat.zero_add, Kernel.ticketsBefore]
  conv_lhs => rw [Kernel.finRange_eq_split p]
  rw [List.foldl_append, foldl_visit_of_le _ (hbefore.trans_le h.le), List.foldl_cons,
    hbefore]
  congr 1
  exact visit_of_lt h.runnable h.lt

/-- A pass makes a single switch exactly when no slot after the holder of the winning
ticket is runnable at the holder's return. -/
theorem dispatched_length_le_one_iff {s : Pass nproc} {p : Fin nproc}
    (hs : s.currentTicket = 0) (hd : s.dispatched = []) (h : s.kernel.Holds w p) :
    ((List.finRange nproc).foldl (visit swtch w) s).dispatched.length ≤ 1 ↔
      ∀ q, p < q →
        ((swtch p (s.kernel.setState p .running)).proc q).state ≠ .runnable := by
  rw [foldl_visit_finRange hs h]
  simp only [← Kernel.mem_drop_finRange]
  have hone : (dispatch swtch { s with
      currentTicket := s.kernel.ticketsBefore p + (s.kernel.proc p).tickets } p).dispatched.length
      = 1 := by
    rw [dispatch, hd]
    rfl
  rw [← hone]
  exact dispatched_length_foldl_of_lt _ h.lt

end Pass

/-! ### The winners of a round -/

section

variable (swtch : Fin nproc → Kernel nproc → Kernel nproc) (c : Cpu nproc)

/-- The kernel that the process in slot `p` is switched to when it wins the round. -/
def Kernel.won (k : Kernel nproc) (p : Fin nproc) : Kernel nproc :=
  { k with seed := (rand k.seed).2 }.setState p .running

/-- With a ticket to draw, the dispatch pass starts at the winning ticket. -/
theorem round_of_ticket {k : Kernel nproc} (h : k.totalTickets ≠ 0) :
    round swtch c k =
      (List.finRange nproc).foldl (Pass.visit swtch k.winningTicket)
        ⟨{ k with seed := (rand k.seed).2 }, c, 0, false, []⟩ := by
  rw [round, if_neg h]
  rfl

/-- **One winner per draw, exactly when**: a round switches to at most one process if and
only if no slot after the holder of the winning ticket is runnable when the holder
switches back. The slots after the holder are read one after the other from there on, in a
table that nobody changes between their locks. -/
theorem one_winner_iff (k : Kernel nproc) :
    (round swtch c k).dispatched.length ≤ 1 ↔
      ∀ p, k.Holds k.winningTicket p →
        ∀ q, p < q → ((swtch p (k.won p)).proc q).state ≠ .runnable := by
  by_cases htotal : k.totalTickets = 0
  · -- no ticket, no holder, no switch
    rw [round, if_pos htotal]
    refine iff_of_true (Nat.zero_le 1) fun p hp => ?_
    have := hp.lt_totalTickets
    omega
  obtain ⟨p, hp⟩ := Kernel.exists_holder (k := k) (w := k.winningTicket)
    (Nat.mod_lt _ (Nat.pos_of_ne_zero htotal))
  have hround : (round swtch c k).dispatched.length ≤ 1 ↔
      ∀ q, p < q → ((swtch p (k.won p)).proc q).state ≠ .runnable := by
    rw [round_of_ticket swtch c htotal]
    exact Pass.dispatched_length_le_one_iff rfl rfl (hp.reseed _)
  rw [hround]
  constructor
  · intro h p' hp'
    obtain rfl := hp.unique hp'
    exact h
  · exact fun h => h p hp

end

/-- The first processes of the system: `init` and its first child, both runnable. -/
def twoRunnable : Kernel 64 where
  proc p :=
    if p = 0 then ⟨.runnable, 1, none, "init", 0, 50⟩
    else if p = 1 then ⟨.runnable, 2, some 0, "sh", 0, 50⟩
    else ⟨.unused, 0, none, "", 0, 0⟩
  seed := 1

/-- The processes only `yield`: each comes back runnable. -/
def yieldBack (p : Fin 64) (k : Kernel 64) : Kernel 64 := k.setState p .runnable

/-- **The defect**: one draw, two processes switched to. The ticket drawn is 48 of 100,
held by `init`; its child has no part in it. -/
theorem two_winners :
    twoRunnable.winningTicket = 48 ∧ twoRunnable.Holds 48 0 ∧
      (round yieldBack ⟨0, none, 0, []⟩ twoRunnable).dispatched = [0, 1] ∧
      ¬ (round yieldBack ⟨0, none, 0, []⟩ twoRunnable).dispatched.length ≤ 1 := by
  have hround : (round yieldBack ⟨0, none, 0, []⟩ twoRunnable).dispatched = [0, 1] := by
    decide +kernel
  refine ⟨by decide +kernel, ⟨rfl, by decide, by decide⟩, hround, ?_⟩
  rw [hround]
  decide

end OsLabs.Lottery
