import OsLabs.Xv6Refinement

/-!
# The Arithmetic of the Lottery

`scheduler` of `proc_our.c` adds up the tickets of the runnable processes in an `int` and
takes the remainder of `rand()` by the sum. Tickets are given out in `allocproc` and taken
back in `freeproc`; in between a process keeps those it has. So every slot in use holds 50
to 99 of them, whatever the other threads and schedulers do, and the arithmetic of a
counting pass is safe however its turns are spread over a run.

Conventions: overflow of a signed sum and division by zero are undefined in C; here the
operation returns `none`. A turn of the counting pass reads the slot under its lock, and
between two turns the rest of the system may make any moves (`Count.move`).

## Main results

* `History.tickets_mem`: a slot in use holds 50 to 99 tickets.
* `Count.spec`: the counting pass is exact, after any number of turns: its total is the sum
  over what it saw under the locks.
* `lottery_arithmetic_safe`: the tickets, the total and the draw.
-/

namespace OsLabs

/-! ### Arithmetic on `int` -/

/-- The values of an `int`. -/
def IsInt (a : ℤ) : Prop := -2 ^ 31 ≤ a ∧ a < 2 ^ 31

instance (a : ℤ) : Decidable (IsInt a) := inferInstanceAs (Decidable (_ ∧ _))

/-- `a + b`. -/
def intAdd (a b : ℤ) : Option ℤ := if IsInt (a + b) then some (a + b) else none

/-- `a % b`, which has the sign of `a`. -/
def intRem (a b : ℤ) : Option ℤ :=
  if b = 0 ∨ ¬ IsInt (a.tdiv b) then none else some (a.tmod b)

/-- A sum within the range of `int` is returned. -/
theorem intAdd_eq_some {a b : ℤ} (h : IsInt (a + b)) : intAdd a b = some (a + b) :=
  if_pos h

/-- The remainder of two numbers that are not negative, the second not 0. -/
theorem intRem_eq_some {a b : ℕ} (ha : a < 2 ^ 31) (hb : 0 < b) :
    intRem a b = some ((a % b : ℕ) : ℤ) := by
  have hdiv : a / b ≤ a := Nat.div_le_self a b
  have hint : IsInt ((a / b : ℕ) : ℤ) := by
    generalize a / b = q at hdiv
    exact ⟨by omega, by omega⟩
  rw [intRem, if_neg, Int.ofNat_tmod]
  rw [← Int.ofNat_tdiv]
  rintro (h0 | hnot)
  · omega
  · exact hnot hint

namespace Xv6

open Lottery (rand rand_fst_lt)

/-- `rand()` as the `int` it returns. -/
def randInt (seed : UInt32) : ℤ := ((rand seed).1 : ℤ).bmod (2 ^ 32)

/-- The conversion to `int` does not change the number: it has 31 bits. -/
theorem randInt_eq (seed : UInt32) : randInt seed = (rand seed).1 := by
  have hlt := rand_fst_lt seed
  exact Int.bmod_eq_of_le_mul_two (by push_cast; omega) (by push_cast; omega)

/-- `NPROC` of `param.h`, which is smaller under `LAB_FS`. -/
def NPROC (labFs : Bool) : ℕ := if labFs then 10 else 64

instance (labFs : Bool) : NeZero (NPROC labFs) := ⟨by cases labFs <;> simp [NPROC]⟩

/-! ### Tickets -/

variable {n : ℕ} [NeZero n] {t : Table n} {u : Update n} {tr : List (Update n)} {i : Fin n}
  {s : State n}

/-- The tickets of a slot change only in `allocproc` and in `freeproc`. -/
theorem tickets_update (hu : u.Guard t) (hi : ((t.update .ours u).proc i).state ≠ .unused) :
    ((t.update .ours u).proc i).tickets = (t.proc i).tickets ∧ (t.proc i).state ≠ .unused ∨
      ∃ r, ((t.update .ours u).proc i).tickets = r % 50 + 50 := by
  rcases update_proc_cases .ours t u i with ⟨rfl, he⟩ | ⟨-, he⟩
  · rw [he] at hi ⊢
    cases u with
    | alloc j pid r => exact .inr ⟨r, rfl⟩
    | abort j | reap j p pid xstate => exact absurd rfl hi
    | kill j pid =>
      refine .inl ⟨rfl, fun hj => hi ?_⟩
      simp only [Update.slot] at hj ⊢
      simp [Update.body, hj]
    | _ => simp_all [Update.Guard, Update.body, Update.slot]
  · rw [he] at hi ⊢
    exact .inl ⟨rfl, hi⟩

/-- **Every slot in use holds 50 to 99 tickets.** -/
theorem History.tickets_mem (h : History .ours tr t) (hi : (t.proc i).state ≠ .unused) :
    50 ≤ (t.proc i).tickets ∧ (t.proc i).tickets ≤ 99 := by
  induction h with
  | boot r =>
    by_cases h0 : i = 0
    · subst h0
      simp only [Xv6.boot, Function.update_self, allocproc]
      omega
    · simp [Xv6.boot, Proc.blank, h0] at hi
  | @update tr t u _ hu ih =>
    rcases tickets_update hu hi with ⟨he, hi'⟩ | ⟨r, he⟩
    · exact he ▸ ih hi'
    · omega

/-- `(rand() % 50) + 50` of `allocproc` in `int` arithmetic is the number of tickets of
the model. -/
theorem int_tickets (seed : UInt32) :
    ((intRem (randInt seed) 50).bind (intAdd · 50)) =
      some (((rand seed).1 % 50 + 50 : ℕ) : ℤ) := by
  have hrem : intRem (randInt seed) 50 = some (((rand seed).1 % 50 : ℕ) : ℤ) := by
    rw [randInt_eq]
    exact intRem_eq_some (rand_fst_lt seed) (b := 50) (by omega)
  have hlt : (rand seed).1 % 50 < 50 := Nat.mod_lt _ (by omega)
  rw [hrem, Option.bind_some, intAdd_eq_some ⟨by omega, by omega⟩]
  push_cast
  rfl

/-! ### The counting pass -/

/-- The variables of the counting pass: the slots still to come, and `total_tickets`. -/
structure Tally (n : ℕ) where
  slots : List (Fin n)
  total : Option ℤ

/-- One turn of the loop, on slot `i` of table `t`. -/
def Tally.turn (t : Table n) (i : Fin n) (c : Tally n) : Tally n where
  slots := c.slots.tail
  total :=
    if (t.proc i).state = .runnable then c.total.bind (intAdd · (t.proc i).tickets) else c.total

/-- **A counting pass in a run** of the kernel, at any moment of it. The list holds what was
in each slot when the pass had its lock; it is taken from the tables of the run, whatever the
pass has made of them. -/
inductive Count : State n → Tally n → List (Fin n × Proc n) → Prop
  /-- `int total_tickets = 0`, at any moment. -/
  | start {tr : List (Update n)} {s : State n} :
      Run .ours tr s → Count s ⟨List.finRange n, some 0⟩ []
  /-- The rest of the system makes a move. -/
  | move {s s' : State n} {u : Option (Update n)} {c : Tally n} {seen : List (Fin n × Proc n)} :
      Count s c seen → Step .ours s u s' → Count s' c seen
  /-- The pass locks the next slot, reads it and releases it. -/
  | turn {s : State n} {i : Fin n} {rest : List (Fin n)} {c : Tally n}
      {seen : List (Fin n × Proc n)} :
      Count s c seen → c.slots = i :: rest → s.lock i = none →
      Count s (c.turn s.table i) (seen ++ [(i, s.table.proc i)])

/-- The tickets of the processes that were runnable when they were seen. -/
def runnableTickets (seen : List (Fin n × Proc n)) : List ℕ :=
  (seen.filter fun x => x.2.state = .runnable).map fun x => x.2.tickets

/-- The winning ticket, when there are tickets; `none` inside is the `continue` before
the draw. -/
def drawTicket (seed : UInt32) (total : ℤ) : Option (Option ℤ) :=
  if total = 0 then some none else (intRem (randInt seed) total).map some

/-- A pass works on a state that the kernel can reach. -/
theorem Count.run {c : Tally n} {seen : List (Fin n × Proc n)} (h : Count s c seen) :
    ∃ tr, Run .ours tr s := by
  induction h with
  | start h => exact ⟨_, h⟩
  | move _ hs ih =>
    obtain ⟨tr, h⟩ := ih
    exact ⟨_, h.step hs⟩
  | turn _ _ _ ih => exact ih

/-- What is true of a pass after any number of turns, with what it has seen. -/
structure Tally.Exact (c : Tally n) (seen : List (Fin n × Proc n)) : Prop where
  /-- The slots are seen in order, each once. -/
  slots : seen.map Prod.fst ++ c.slots = List.finRange n
  /-- A slot in use had 50 to 99 tickets. -/
  tickets : ∀ x ∈ seen, x.2.state ≠ .unused → 50 ≤ x.2.tickets ∧ x.2.tickets ≤ 99
  /-- No sum has overflowed. -/
  total : c.total = some (((runnableTickets seen).sum : ℕ) : ℤ)

section

variable {c : Tally n} {seen : List (Fin n × Proc n)}

omit [NeZero n] in
/-- At most `n` slots have been seen. -/
theorem Tally.Exact.length_eq (h : c.Exact seen) : seen.length + c.slots.length = n := by
  have hlen := congrArg List.length h.slots
  rwa [List.length_append, List.length_map, List.length_finRange] at hlen

omit [NeZero n] in
/-- Each runnable process adds 50 to 99 tickets, so the sum is at most 99 for each slot seen,
and it is 0 only if there was none. -/
theorem Tally.Exact.sum_mem (h : c.Exact seen) :
    50 * (runnableTickets seen).length ≤ (runnableTickets seen).sum ∧
      (runnableTickets seen).sum ≤ 99 * seen.length := by
  have hmem : ∀ k ∈ runnableTickets seen, 50 ≤ k ∧ k ≤ 99 := by
    intro k hk
    obtain ⟨x, hx, rfl⟩ := List.mem_map.1 hk
    obtain ⟨hseen, hrun⟩ := List.mem_filter.1 hx
    exact h.tickets x hseen (by simp [of_decide_eq_true hrun])
  have hlow := List.card_nsmul_le_sum _ 50 fun x hx => (hmem x hx).1
  have hhigh := List.sum_le_card_nsmul _ 99 fun x hx => (hmem x hx).2
  have hle : (runnableTickets seen).length ≤ seen.length := by
    rw [runnableTickets, List.length_map]
    exact List.length_filter_le ..
  simp only [smul_eq_mul] at hlow hhigh
  omega

omit [NeZero n] in
/-- The sum is 0 exactly if no slot seen was runnable. -/
theorem Tally.Exact.sum_eq_zero (h : c.Exact seen) :
    (runnableTickets seen).sum = 0 ↔ ∀ x ∈ seen, x.2.state ≠ .runnable := by
  have hsum := h.sum_mem
  constructor
  · intro hzero x hx hrun
    have hmem : x.2.tickets ∈ runnableTickets seen :=
      List.mem_map_of_mem (List.mem_filter.2 ⟨hx, decide_eq_true hrun⟩)
    have hpos := List.length_pos_of_mem hmem
    omega
  · intro hnone
    rw [runnableTickets, List.filter_eq_nil_iff.2 fun x hx => by simpa using hnone x hx]
    rfl

omit [NeZero n] in
/-- One turn on a slot whose tickets are in range keeps the sum exact. -/
theorem Tally.Exact.turn {rest : List (Fin n)} (h : c.Exact seen) (hn : 99 * n < 2 ^ 31)
    (hslots : c.slots = i :: rest)
    (hi : (t.proc i).state ≠ .unused → 50 ≤ (t.proc i).tickets ∧ (t.proc i).tickets ≤ 99) :
    (c.turn t i).Exact (seen ++ [(i, t.proc i)]) := by
  have hlen := h.length_eq
  have hsum := h.sum_mem
  rw [hslots, List.length_cons] at hlen
  refine ⟨?_, ?_, ?_⟩
  · rw [← h.slots, hslots, List.map_append, List.append_assoc, Tally.turn, hslots]
    rfl
  · intro x hx
    rcases List.mem_append.1 hx with hx | hx
    · exact h.tickets x hx
    · rw [List.mem_singleton.1 hx]
      exact hi
  · rw [Tally.turn, runnableTickets, List.filter_append, List.map_append, List.sum_append]
    split
    · rename_i hrun
      have hi' := hi (by simp [hrun])
      rw [h.total, Option.bind_some, intAdd_eq_some ⟨by omega, by omega⟩]
      simp [runnableTickets, hrun]
    · rename_i hrun
      rw [h.total]
      simp [runnableTickets, hrun]

/-- **The counting pass is exact** after any number of turns, among any moves of the rest
of the system. -/
theorem Count.spec (h : Count s c seen) (hn : 99 * n < 2 ^ 31) : c.Exact seen := by
  induction h with
  | start _ => exact ⟨rfl, by simp, rfl⟩
  | move _ _ ih => exact ih
  | turn hc hslots _ ih =>
    obtain ⟨tr, hr⟩ := hc.run
    exact ih.turn hn hslots fun hi => hr.history.tickets_mem hi

end

/-- The draw, when the pass found tickets. -/
theorem drawTicket_eq (seed : UInt32) {total : ℕ} (h : 0 < total) :
    drawTicket seed total = some (some (((rand seed).1 % total : ℕ) : ℤ)) := by
  rw [drawTicket, if_neg (by omega), randInt_eq, intRem_eq_some (rand_fst_lt seed) h]
  rfl

/-- **The arithmetic of the lottery is safe.** Under both values of `NPROC`: `allocproc`
computes its tickets in `int`; along every run a runnable process holds 50 to 99 of them; and
at every moment of a counting pass `total_tickets` is the exact sum of the tickets that the
runnable processes had when the pass locked their slots, one slot after the other, within 99
for each slot. It is 0 exactly when none of them was runnable; then nothing is drawn, while
otherwise the draw, for every seed, is a ticket in `[0, total_tickets)`. -/
theorem lottery_arithmetic_safe (labFs : Bool) :
    (∀ (seed : UInt32) (pid : ℤ) (p : Proc (NPROC labFs)),
      (intRem (randInt seed) 50).bind (intAdd · 50) =
        some ((allocproc .ours pid (rand seed).1 p).tickets : ℤ)) ∧
    (∀ (tr : List (Update (NPROC labFs))) (s : State (NPROC labFs)) (i : Fin (NPROC labFs)),
      Run .ours tr s → (s.table.proc i).state = .runnable →
      50 ≤ (s.table.proc i).tickets ∧ (s.table.proc i).tickets ≤ 99) ∧
    ∀ (s : State (NPROC labFs)) (c : Tally (NPROC labFs))
      (seen : List (Fin (NPROC labFs) × Proc (NPROC labFs))), Count s c seen →
      seen.map Prod.fst ++ c.slots = List.finRange (NPROC labFs) ∧
      ∃ total : ℕ, c.total = some (total : ℤ) ∧ total = (runnableTickets seen).sum ∧
        total ≤ 99 * NPROC labFs ∧ (total = 0 ↔ ∀ x ∈ seen, x.2.state ≠ .runnable) ∧
        ∀ seed, (total = 0 ∧ drawTicket seed total = some none) ∨
          ∃ winning : ℤ, drawTicket seed total = some (some winning) ∧
            0 ≤ winning ∧ winning < total := by
  have hn : 99 * NPROC labFs < 2 ^ 31 := by cases labFs <;> simp [NPROC]
  refine ⟨fun seed pid p => int_tickets seed, fun tr s i h hi => ?_, fun s c seen h => ?_⟩
  · exact h.history.tickets_mem (by simp [hi])
  · have hc := h.spec hn
    have hsum := hc.sum_mem
    have hlen := hc.length_eq
    refine ⟨hc.slots, _, hc.total, rfl, by omega, hc.sum_eq_zero, fun seed => ?_⟩
    rcases Nat.eq_zero_or_pos (runnableTickets seen).sum with h0 | hpos
    · exact Or.inl ⟨h0, by rw [h0]; rfl⟩
    · refine Or.inr ⟨_, drawTicket_eq seed hpos, by omega, ?_⟩
      have := Nat.mod_lt (rand seed).1 hpos
      omega

/-- A whole pass after `userinit`. It sees the first process with 60 tickets; another scheduler
runs that process before the pass has come to the other slots. One of the 60 tickets wins. -/
theorem lottery_arithmetic_safe_first :
    ∃ (s : State (NPROC true)) (c : Tally (NPROC true))
      (seen : List (Fin (NPROC true) × Proc (NPROC true))),
      Count s c seen ∧ (s.table.proc 0).state = .running ∧ c.slots = [] ∧ c.total = some 60 ∧
        ∀ seed, ∃ winning : ℤ, drawTicket seed 60 = some (some winning) ∧
          0 ≤ winning ∧ winning < 60 := by
  have hfirst := (Count.start (Run.boot (n := NPROC true) (b := .ours) 10)).turn rfl rfl
  have hcount := (hfirst.move (.dispatch (p := 0) rfl rfl .yielded))
    |>.turn rfl rfl |>.turn rfl rfl |>.turn rfl rfl |>.turn rfl rfl |>.turn rfl rfl
    |>.turn rfl rfl |>.turn rfl rfl |>.turn rfl rfl |>.turn rfl rfl
  have hwin : ∀ (s : State (NPROC true)) c seen, Count s c seen → c.total = some 60 →
      ∀ seed, ∃ winning : ℤ, drawTicket seed 60 = some (some winning) ∧ 0 ≤ winning ∧
        winning < 60 := by
    intro s c seen hc htotal seed
    obtain ⟨-, total, heq, -, -, -, hdraw⟩ := (lottery_arithmetic_safe true).2.2 s c seen hc
    have hsixty : (total : ℤ) = 60 := Option.some.inj (heq.symm.trans htotal)
    rw [hsixty] at hdraw
    rcases hdraw seed with ⟨hzero, -⟩ | hdraw
    · omega
    · exact hdraw
  exact ⟨_, _, _, hcount, rfl, rfl, by decide +kernel, hwin _ _ _ hcount (by decide +kernel)⟩

end Xv6

end OsLabs
