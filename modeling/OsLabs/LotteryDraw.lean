import OsLabs.LotteryInterleaved

/-!
# The Lottery Draw Is Proportional

A round of `scheduler` of `proc_our.c` may switch to more processes than one, and among
other CPUs to none (`OsLabs.Lottery`, `OsLabs.LotteryInterleaved`). The *first* switch is
a fair lottery: as long as no state and no number of tickets changes from the counting
pass up to it, the process switched to is the holder of the winning ticket, and each
runnable process wins with exactly as many of the possible draws as it has tickets.

Conventions: `env.drawing c k w` is the dispatch pass with the winning ticket `w`, which
the round takes from the seed. The environment may change everything else that the table
and the seed hold, and after the first switch anything at all.

## Main results

* `Env.Steady.foldl_turn`: before the winning ticket the pass only adds up the shares.
* `Env.Steady.head_dispatched`: the first process switched to holds the winning ticket.
* `lottery_proportional`: the draw, over all winning tickets.
-/

namespace OsLabs.Lottery

variable {nproc : ℕ}

/-- Two tables with the same states and the same tickets. -/
def Kernel.SameTickets (k k' : Kernel nproc) : Prop :=
  ∀ p, (k'.proc p).state = (k.proc p).state ∧ (k'.proc p).tickets = (k.proc p).tickets

namespace Env

variable (env : Env nproc)

/-- The dispatch pass with winning ticket `w`. -/
def drawing (c : Cpu nproc) (k : Kernel nproc) (w : ℕ) : Round nproc :=
  (List.finRange nproc).foldl (env.turn w) (env.start c k)

/-- The dispatch pass before the turn of slot `p`. -/
def drawingBefore (c : Cpu nproc) (k : Kernel nproc) (w : ℕ) (p : ℕ) : Round nproc :=
  ((List.finRange nproc).take p).foldl (env.turn w) (env.start c k)

/-- **No change up to the first switch**: whenever a pass locks a slot, the counting pass
always and the dispatch pass before it has switched to a process, the table has the
states and the tickets of `k`. -/
structure Steady (c : Cpu nproc) (k : Kernel nproc) (w : ℕ) : Prop where
  count : ∀ p : Fin nproc, k.SameTickets
    (env.count p (((List.finRange nproc).take p).foldl env.countTurn (k, 0)).1)
  dispatch : ∀ p : Fin nproc, (env.drawingBefore c k w p).pass.dispatched = [] →
    k.SameTickets (env.dispatch p (env.drawingBefore c k w p).pass.kernel)

end Env

/-- Tables with the same tickets have the same shares. -/
theorem Kernel.SameTickets.share_eq {k k' : Kernel nproc} (h : k.SameTickets k')
    (p : Fin nproc) : k'.share p = k.share p := by
  rw [Kernel.share, Kernel.share, (h p).1, (h p).2]

/-! ### The passes -/

/-- A pass over one slot more is the pass over those before it and one turn. -/
theorem foldl_take_succ {α : Type} (f : α → Fin nproc → α) (a : α) (p : Fin nproc) :
    ((List.finRange nproc).take (p + 1)).foldl f a =
      f (((List.finRange nproc).take p).foldl f a) p := by
  have hp : (p : ℕ) < (List.finRange nproc).length := by simp
  rw [List.take_succ_eq_append_getElem hp, List.foldl_append, List.getElem_finRange]
  rfl

/-- The shares of one slot more are those before it and its own. -/
theorem sum_share_take_succ (k : Kernel nproc) (p : Fin nproc) :
    (((List.finRange nproc).take (p + 1)).map k.share).sum =
      k.ticketsBefore p + k.share p := by
  have hp : (p : ℕ) < (List.finRange nproc).length := by simp
  rw [List.take_succ_eq_append_getElem hp, List.map_append, List.sum_append,
    List.map_singleton, List.sum_singleton, List.getElem_finRange]
  rfl

namespace Env

variable {env : Env nproc} {c : Cpu nproc} {k : Kernel nproc} {w : ℕ}

/-- The counting pass finds the tickets of the table. -/
theorem Steady.counted (h : env.Steady c k w) : (env.counted k).2 = k.totalTickets := by
  have hfirst : ∀ n ≤ nproc, (((List.finRange nproc).take n).foldl env.countTurn (k, 0)).2 =
      (((List.finRange nproc).take n).map k.share).sum := by
    intro n
    induction n with
    | zero => exact fun _ => rfl
    | succ n ih =>
        intro hn
        have hsame := h.count ⟨n, hn⟩
        rw [foldl_take_succ _ _ ⟨n, hn⟩, sum_share_take_succ k ⟨n, hn⟩, env.countTurn_eq]
        simp only
        rw [hsame.share_eq, ih (by omega)]
        rfl
  have hall := hfirst nproc le_rfl
  rwa [List.take_of_length_le (by simp), ← Kernel.totalTickets_eq] at hall

/-- The dispatch pass comes to one more slot by the turn of that slot. -/
theorem drawingBefore_succ (p : Fin nproc) :
    env.drawingBefore c k w (p + 1) = env.turn w (env.drawingBefore c k w p) p :=
  foldl_take_succ _ _ p

/-- **Before the winning ticket** the dispatch pass switches to no process and adds up the
shares of the table. Induction on the slots passed. -/
theorem Steady.foldl_turn (h : env.Steady c k w) {n : ℕ} (hn : n ≤ nproc)
    (hle : (((List.finRange nproc).take n).map k.share).sum ≤ w) :
    (env.drawingBefore c k w n).pass.dispatched = [] ∧
      (env.drawingBefore c k w n).pass.currentTicket =
        (((List.finRange nproc).take n).map k.share).sum := by
  induction n with
  | zero => exact ⟨rfl, rfl⟩
  | succ n ih =>
      have hsum : (((List.finRange nproc).take (n + 1)).map k.share).sum =
          k.ticketsBefore ⟨n, hn⟩ + k.share ⟨n, hn⟩ := sum_share_take_succ k ⟨n, hn⟩
      have hbefore : (((List.finRange nproc).take n).map k.share).sum =
          k.ticketsBefore ⟨n, hn⟩ := rfl
      rw [hbefore] at ih
      rw [hsum] at hle ⊢
      obtain ⟨hnone, hcur⟩ := ih (by omega) (by omega)
      have hshare : (env.dispatch ⟨n, hn⟩ (env.drawingBefore c k w n).pass.kernel).share ⟨n, hn⟩ =
          k.share ⟨n, hn⟩ := (h.dispatch ⟨n, hn⟩ hnone).share_eq ⟨n, hn⟩
      rw [drawingBefore_succ ⟨n, hn⟩, turn]
      simp only
      rw [Pass.visit_of_le (by simp only [hshare, hcur]; exact hle)]
      exact ⟨hnone, by simp only [hshare, hcur]⟩

/-- What has been switched to first stays first. -/
theorem head_foldl_turn (l : List (Fin nproc)) {r : Round nproc} {p : Fin nproc}
    (h : r.pass.dispatched.head? = some p) :
    (l.foldl (env.turn w) r).pass.dispatched.head? = some p := by
  induction l generalizing r with
  | nil => exact h
  | cons q l ih =>
      refine ih ?_
      simp only [turn, Pass.visit]
      split
      · split
        · rw [Pass.dispatch, List.head?_append, h]
          rfl
        · exact h
      · exact h

/-- **The first switch** is to the holder of the winning ticket. -/
theorem Steady.head_dispatched (h : env.Steady c k w) {p : Fin nproc} (hp : k.Holds w p) :
    (env.drawing c k w).pass.dispatched.head? = some p := by
  obtain ⟨hnone, hcur⟩ := h.foldl_turn p.isLt.le hp.le
  obtain ⟨hstate, htickets⟩ := h.dispatch p hnone p
  rw [drawing, Kernel.finRange_eq_split p, List.foldl_append, List.foldl_cons]
  refine head_foldl_turn _ ?_
  rw [← drawingBefore, turn]
  simp only
  rw [Pass.visit_of_lt (hstate.trans hp.runnable)]
  · rw [Pass.dispatch, hnone]
    rfl
  · simp only [hcur, htickets]
    exact hp.lt

/-- A turn that leaves nothing switched to has changed the kernel only by what happened
before it. -/
theorem turn_of_dispatched_nil {r : Round nproc} {p : Fin nproc}
    (h : (env.turn w r p).pass.dispatched = []) :
    r.pass.dispatched = [] ∧
      (env.turn w r p).pass.kernel = env.dispatch p r.pass.kernel := by
  simp only [turn, Pass.visit] at h ⊢
  split at h
  · rename_i hrun
    rw [if_pos hrun]
    split at h
    · simp [Pass.dispatch] at h
    · rename_i hle
      rw [if_neg hle]
      exact ⟨h, rfl⟩
  · rename_i hrun
    rw [if_neg hrun]
    exact ⟨h, rfl⟩

/-- Nothing changes up to the first switch if no single change touches a state or a
number of tickets. -/
theorem steady_of_sameTickets (c : Cpu nproc) (w : ℕ)
    (hcount : ∀ p k', k.SameTickets k' → k.SameTickets (env.count p k'))
    (hdraw : ∀ k', k.SameTickets k' → k.SameTickets (env.draw k'))
    (hdispatch : ∀ p k', k.SameTickets k' → k.SameTickets (env.dispatch p k')) :
    env.Steady c k w := by
  have hcounted : ∀ l : List (Fin nproc),
      k.SameTickets (l.foldl env.countTurn (k, 0)).1 := by
    intro l
    induction l using List.reverseRecOn with
    | nil => exact fun p => ⟨rfl, rfl⟩
    | append_singleton l p ih =>
        rw [List.foldl_append]
        exact hcount p _ ih
  have hdispatched : ∀ l : List (Fin nproc),
      (l.foldl (env.turn w) (env.start c k)).pass.dispatched = [] →
        k.SameTickets (l.foldl (env.turn w) (env.start c k)).pass.kernel := by
    intro l
    induction l using List.reverseRecOn with
    | nil =>
        -- the draw itself only changes the seed
        intro _ p
        exact hdraw _ (hcounted (List.finRange nproc)) p
    | append_singleton l p ih =>
        rw [List.foldl_append, List.foldl_cons, List.foldl_nil]
        intro hnone
        obtain ⟨hbefore, hkernel⟩ := turn_of_dispatched_nil hnone
        rw [hkernel]
        exact hdispatch p _ (ih hbefore)
  exact ⟨fun p => hcount p _ (hcounted _), fun p hnone => hdispatch p _ (hdispatched _ hnone)⟩

end Env

/-! ### The draw -/

/-- The winning tickets of a runnable slot are as many as it has tickets. -/
theorem card_filter_holds (k : Kernel nproc) {p : Fin nproc}
    (hrun : (k.proc p).state = .runnable) (holder : ℕ → Option (Fin nproc))
    (hholder : ∀ w q, k.Holds w q → holder w = some q) :
    ((Finset.range k.totalTickets).filter fun w => holder w = some p).card =
      (k.proc p).tickets := by
  have hfilter : ((Finset.range k.totalTickets).filter fun w => holder w = some p) =
      Finset.Ico (k.ticketsBefore p) (k.ticketsBefore p + (k.proc p).tickets) := by
    ext w
    simp only [Finset.mem_filter, Finset.mem_range, Finset.mem_Ico]
    constructor
    · rintro ⟨hw, hp⟩
      obtain ⟨q, hq⟩ := Kernel.exists_holder hw
      obtain rfl : q = p := Option.some.inj ((hholder w q hq).symm.trans hp)
      exact ⟨hq.le, hq.lt⟩
    · rintro ⟨hle, hlt⟩
      have hp : k.Holds w p := ⟨hrun, hle, hlt⟩
      exact ⟨hp.lt_totalTickets, hholder w p hp⟩
  rw [hfilter, Nat.card_Ico, Nat.add_sub_cancel_left]

/-- **The draw is proportional.** In every environment and for every table whose states
and tickets do not change up to the first switch: the total is the sum over the runnable
slots, a round with tickets is the dispatch pass of a ticket below it, for every winning
ticket the first process switched to exists and is its one holder, and each runnable
process is the first for exactly as many draws as it has tickets. -/
theorem lottery_proportional (env : Env nproc) (c : Cpu nproc) (k : Kernel nproc)
    (hpos : 0 < k.totalTickets) (h : ∀ w < k.totalTickets, env.Steady c k w) :
    (env.counted k).2 = k.totalTickets ∧
    (env.winningTicket k < k.totalTickets ∧
      (env.round c k).pass = (env.drawing c k (env.winningTicket k)).pass) ∧
    (∀ w < k.totalTickets, ∃ p, (env.drawing c k w).pass.dispatched.head? = some p ∧
      k.Holds w p ∧ ∀ q, k.Holds w q → q = p) ∧
    ∀ p, (k.proc p).state = .runnable →
      ((Finset.range k.totalTickets).filter fun w =>
        (env.drawing c k w).pass.dispatched.head? = some p).card = (k.proc p).tickets := by
  have hcounted : (env.counted k).2 = k.totalTickets := (h 0 hpos).counted
  refine ⟨hcounted, ⟨?_, ?_⟩, ?_, ?_⟩
  · rw [Env.winningTicket, hcounted]
    exact Nat.mod_lt _ hpos
  · rw [Env.round, if_neg (by omega)]
    rfl
  · intro w hw
    obtain ⟨p, hp⟩ := Kernel.exists_holder hw
    exact ⟨p, (h w hw).head_dispatched hp, hp, fun q hq => hq.unique hp⟩
  · intro p hrun
    exact card_filter_holds k hrun _ fun w q hq =>
      (h w hq.lt_totalTickets).head_dispatched hq

/-- An environment that changes nothing up to the first switch. -/
def undisturbed : Env 64 where
  count _ k := k
  draw k := k
  dispatch _ k := k
  swtch := yieldBack

/-- Two runnable processes and nobody else on the machine: each ticket has one winner. -/
theorem lottery_proportional_two :
    0 < twoRunnable.totalTickets ∧
      ∀ p, (twoRunnable.proc p).state = .runnable →
        ((Finset.range twoRunnable.totalTickets).filter fun w =>
          (undisturbed.drawing ⟨0, none, 0, []⟩ twoRunnable w).pass.dispatched.head? =
            some p).card = (twoRunnable.proc p).tickets := by
  have hpos : 0 < twoRunnable.totalTickets := by decide +kernel
  obtain ⟨-, -, -, hcard⟩ := lottery_proportional undisturbed ⟨0, none, 0, []⟩ twoRunnable hpos
    fun w _ => Env.steady_of_sameTickets _ w (fun _ _ h => h) (fun _ h => h) (fun _ _ h => h)
  exact ⟨hpos, hcard⟩

end OsLabs.Lottery
