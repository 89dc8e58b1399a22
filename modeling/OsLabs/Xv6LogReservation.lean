import Mathlib.Algebra.Order.BigOperators.Group.Finset
import Mathlib.Data.Fintype.EquivFin
import OsLabs.Xv6LogAdmission

/-!
# The Reservation of the Log

`begin_op` reserves `MAXOPBLOCKS` blocks of the log for each call. `Room` is the invariant
behind it: what is in the log and what the calls in progress may still add fits in `LOGSIZE`.
That is not the bound that `log_write` enforces, for one block of the log area is its header:
with the log area that `mkfs` makes, three calls within their budgets can fill the log, and
the next new block is a panic.

## Main results

* `Room.step`: the reservation is kept by every step.
* `logWrite_never_panics_iff`: within its budget a call never overflows the log, exactly if
  the log area is larger than `LOGSIZE`.
-/

namespace OsLabs.Xv6Log

variable {Tid : Type} [DecidableEq Tid] [Fintype Tid] {L : Layout} {base d : Disk}
  {s s' : State Tid} {l : Ledger Tid BlockNo Block} {as : List (Action Tid BlockNo Block)}

/-! ### The reservation -/

/-- The blocks that a system call may still add to the log. -/
def Thread.reserve : Thread → ℕ
  | inside blocks => MAXOPBLOCKS - blocks.length
  | _ => 0

/-- Only a thread in a call reserves blocks, and at most `MAXOPBLOCKS`. -/
theorem Thread.reserve_le (p : Thread) : p.reserve ≤ if p.isInside then MAXOPBLOCKS else 0 := by
  cases p <;> simp [reserve, isInside]

/-- The reservation changes by what the thread that moves has reserved before and after. -/
theorem sum_reserve_goto (t : Tid) (p : Thread) :
    ∑ u, ((s.goto t p).thread u).reserve + (s.thread t).reserve =
      ∑ u, (s.thread u).reserve + p.reserve := by
  have hrest : ∑ u ∈ Finset.univ.erase t, ((s.goto t p).thread u).reserve =
      ∑ u ∈ Finset.univ.erase t, (s.thread u).reserve :=
    Finset.sum_congr rfl fun u hu => by rw [thread_goto_of_ne p (Finset.ne_of_mem_erase hu)]
  rw [← Finset.add_sum_erase _ _ (Finset.mem_univ t), hrest, thread_goto_self,
    ← Finset.add_sum_erase _ (fun u => (s.thread u).reserve) (Finset.mem_univ t)]
  omega

omit [DecidableEq Tid] in
/-- A wakeup reserves nothing and gives nothing back. -/
theorem sum_reserve_wakeup :
    ∑ u, (s.wakeup.thread u).reserve = ∑ u, (s.thread u).reserve := by
  refine Finset.sum_congr rfl fun u _ => ?_
  simp only [State.wakeup]
  split
  · rename_i h
    rw [h]
    rfl
  · rfl

/-- The calls in progress reserve at most `MAXOPBLOCKS` blocks each, which is what `begin_op`
counts on. -/
theorem Inv.sum_reserve_le (h : Inv L base s l) :
    ∑ u, (s.thread u).reserve ≤ s.outstanding * MAXOPBLOCKS := by
  calc ∑ u, (s.thread u).reserve
      ≤ ∑ u, if (s.thread u).isInside then MAXOPBLOCKS else 0 :=
        Finset.sum_le_sum fun u _ => (s.thread u).reserve_le
    _ = s.outstanding * MAXOPBLOCKS := by
        rw [h.count, ← Finset.sum_filter, Finset.sum_const]
        rfl

/-- No call in progress has passed more than `MAXOPBLOCKS` blocks to `log_write`: the promise
of `param.h`. -/
def Budgeted (s : State Tid) : Prop :=
  ∀ t blocks, s.thread t = .inside blocks → blocks.length ≤ MAXOPBLOCKS

/-- A step after which all calls are within their budget. -/
def BudgetStep (L : Layout) (s : State Tid) (a : Action Tid BlockNo Block) (s' : State Tid) :
    Prop :=
  Step L s a s' ∧ Budgeted s'

/-- **The invariant behind the reservation**: what the calls in progress have stored is in the
log, and the log with all that they may still add is within `LOGSIZE`. -/
structure Room (s : State Tid) : Prop where
  logged : ∀ t blocks, s.thread t = .inside blocks → ∀ b ∈ blocks, b ∈ s.lh
  room : s.lh.length + ∑ t, (s.thread t).reserve ≤ LOGSIZE

omit [DecidableEq Tid] in
/-- The reservation depends on the threads and the log only. -/
theorem Room.congr (h : Room s) (hthread : s'.thread = s.thread) (hlh : s'.lh = s.lh) :
    Room s' := by
  refine ⟨?_, ?_⟩
  · rw [hthread, hlh]
    exact h.logged
  · rw [hthread, hlh]
    exact h.room

omit [Fintype Tid] in
/-- Who is in a call after a thread has moved. -/
theorem goto_inside {t u : Tid} {p : Thread} {blocks : List BlockNo}
    (h : (s.goto t p).thread u = .inside blocks) :
    (u = t ∧ p = .inside blocks) ∨ (u ≠ t ∧ s.thread u = .inside blocks) := by
  by_cases hut : u = t
  · subst hut
    exact .inl ⟨rfl, (thread_goto_self u p).symm.trans h⟩
  · exact .inr ⟨hut, by rwa [← thread_goto_of_ne p hut]⟩

/-- A thread that does not enter a call reserves nothing. -/
theorem Room.goto (h : Room s) {t : Tid} {p : Thread} (hp : p.isInside = false) :
    Room (s.goto t p) := by
  have hsum := sum_reserve_goto (s := s) t p
  have hres := p.reserve_le
  have hroom := h.room
  rw [hp] at hres
  refine ⟨fun u blocks hu b hb => ?_, ?_⟩
  · rcases goto_inside hu with ⟨-, heq⟩ | ⟨-, hu⟩
    · rw [heq] at hp
      cases hp
    · exact h.logged u blocks hu b hb
  · change s.lh.length + ∑ u, ((s.goto t p).thread u).reserve ≤ _
    simp only [Bool.false_eq_true, if_false] at hres
    omega

omit [DecidableEq Tid] [Fintype Tid] in
/-- A thread in a call after `wakeup(&log)` has been in it before. -/
theorem wakeup_inside {t : Tid} {blocks : List BlockNo}
    (h : s.wakeup.thread t = .inside blocks) : s.thread t = .inside blocks := by
  simp only [State.wakeup] at h
  split at h
  · cases h
  · exact h

/-- With no call in progress nothing is reserved. -/
theorem Inv.room_of_quiet (h : Inv L base s l) (hout : s.outstanding = 0)
    (hlen : s.lh.length ≤ LOGSIZE) : Room s := by
  have hsum := h.sum_reserve_le
  rw [hout, Nat.zero_mul] at hsum
  refine ⟨fun t blocks ht => ?_, by omega⟩
  have := (h.running (t := t) (by simp [ht, Thread.isInside])).2
  omega

/-- **Every step within the budget keeps the reservation.** -/
theorem Room.step (h : Room s) (hinv : Inv L base s l) {a : Action Tid BlockNo Block}
    (hstep : Step L s a s') (hbudget : Budgeted s') : Room s' := by
  have hroom := h.room
  have hinv' := hinv.step hstep
  cases hstep with
  | beginOp t ht hboot =>
    rw [State.beginOp]
    split
    · rename_i hadmit
      have hsum := hinv.sum_reserve_le
      have hgoto := sum_reserve_goto (s := s) t (.inside [])
      have hres : (Thread.inside []).reserve = MAXOPBLOCKS := rfl
      have hlog := hadmit.2
      rw [Nat.add_mul, Nat.one_mul] at hlog
      refine ⟨fun u blocks hu b hb => ?_, ?_⟩
      · rcases goto_inside hu with ⟨-, heq⟩ | ⟨-, hu⟩
        · obtain rfl := Thread.inside.inj heq
          cases hb
        · exact h.logged u blocks hu b hb
      · change s.lh.length + ∑ u, ((s.goto t (.inside [])).thread u).reserve ≤ _
        omega
    · exact h.goto rfl
  | store t blocks b data s' ht hb hs' =>
    have hlen := hbudget t _ (thread_goto_self t (.inside (blocks.insert b)))
    obtain ⟨-, -, hcase⟩ := logWrite_cases hs'
    have hthread : s'.thread = s.thread := by rcases hcase with ⟨-, rfl⟩ | ⟨-, rfl⟩ <;> rfl
    have hmem : b ∈ s'.lh := by
      rcases hcase with ⟨hmem, rfl⟩ | ⟨-, rfl⟩
      · exact hmem
      · simp
    have hold : ∀ c ∈ s.lh, c ∈ s'.lh := fun c hc => by
      rcases hcase with ⟨-, rfl⟩ | ⟨-, rfl⟩
      · exact hc
      · exact List.mem_append_left _ hc
    refine ⟨fun u bs hu c hc => ?_, ?_⟩
    · change c ∈ s'.lh
      rcases goto_inside hu with ⟨-, heq⟩ | ⟨-, hu⟩
      · obtain rfl := Thread.inside.inj heq
        rcases List.mem_insert_iff.1 hc with rfl | hc
        · exact hmem
        · exact hold c (h.logged t blocks ht c hc)
      · rw [hthread] at hu
        exact hold c (h.logged u bs hu c hc)
    · have hgoto := sum_reserve_goto (s := s') t (.inside (blocks.insert b))
      rw [hthread, ht] at hgoto
      have hres : (Thread.inside (blocks.insert b)).reserve =
        MAXOPBLOCKS - (blocks.insert b).length := rfl
      have hres' : (Thread.inside blocks).reserve = MAXOPBLOCKS - blocks.length := rfl
      change s'.lh.length + _ ≤ _
      rcases hcase with ⟨hin, rfl⟩ | ⟨hin, rfl⟩
      · -- absorbed: the log does not grow
        have hle : blocks.length ≤ (blocks.insert b).length := List.length_le_length_insert
        change s.lh.length + _ ≤ _
        omega
      · -- a new block of the log is a new block of the call
        have hnew : b ∉ blocks := fun hb' => hin (h.logged t blocks ht b hb')
        rw [List.insert_of_not_mem hnew, List.length_cons] at hlen hres
        rw [List.insert_of_not_mem hnew] at hgoto ⊢
        have hlh : (s.lh ++ [b]).length = s.lh.length + 1 := List.length_append
        change (s.lh ++ [b]).length + _ ≤ _
        omega
  | endOp t blocks s' ht hs' =>
    have hle : s'.lh = s.lh ∧ ∑ u, (s'.thread u).reserve ≤ ∑ u, (s.thread u).reserve ∧
        ∀ u bs, s'.thread u = .inside bs → s.thread u = .inside bs := by
      have hgoto := fun p => sum_reserve_goto (s := s) t p
      simp only [State.endOp] at hs'
      split at hs'
      · cases hs'
      · split at hs'
        · obtain rfl := Option.some.inj hs'
          refine ⟨rfl, ?_, fun u bs hu => ?_⟩
          · have := hgoto .committing
            have hres : Thread.committing.reserve = 0 := rfl
            change ∑ u, ((s.goto t .committing).thread u).reserve ≤ _
            omega
          · rcases goto_inside hu with ⟨-, heq⟩ | ⟨-, hu⟩
            · cases heq
            · exact hu
        · obtain rfl := Option.some.inj hs'
          refine ⟨rfl, ?_, fun u bs hu => ?_⟩
          · have := hgoto .outside
            have hres : Thread.outside.reserve = 0 := rfl
            rw [sum_reserve_wakeup]
            change ∑ u, ((s.goto t .outside).thread u).reserve ≤ _
            omega
          · rcases goto_inside (wakeup_inside hu) with ⟨-, heq⟩ | ⟨-, hu⟩
            · cases heq
            · exact hu
    obtain ⟨hlh, hsum, hin⟩ := hle
    refine ⟨fun u bs hu b hb => ?_, ?_⟩
    · rw [hlh]
      exact h.logged u bs (hin u bs hu) b hb
    · rw [hlh]
      omega
  | kill t ht => exact h.goto rfl
  | writeLog tail b hphase hb => exact h.congr rfl rfl
  | writeHead hphase hpos => exact h.congr rfl rfl
  | commitNone hphase hnil => exact h.congr rfl rfl
  | install r tail b hphase hb => cases r <;> exact h.congr rfl rfl
  | clear r hphase =>
    have hp := hinv.phase
    rw [hphase] at hp
    refine hinv'.room_of_quiet ?_ (Nat.zero_le _)
    cases r with
    | false => exact hp.2.2.1.outstanding
    | true => exact hp.2.2.1.outstanding
  | endCommit t hphase ht =>
    have hp := hinv.phase
    rw [hphase] at hp
    refine hinv'.room_of_quiet hp.2.2.1.outstanding ?_
    change s.lh.length ≤ LOGSIZE
    omega
  | readHead lh hphase hlh =>
    have hp := hinv.phase
    rw [hphase] at hp
    exact hinv'.room_of_quiet hp.1.outstanding hinv'.phase.2.1.ok.length_le
  | bread b => exact h.congr rfl rfl
  | evict b hpins => exact h.congr rfl rfl
  | crash => exact hinv'.room_of_quiet rfl (Nat.zero_le _)

/-- The reservation is kept in every run in which all calls keep within their budgets. -/
theorem room_run (hd : ∃ lh, readHead (d L.start) = some lh ∧ LhOk L lh)
    (h : Runs (BudgetStep L) (booting d) as s) : Sound L (recovered L d) s ∧ Room s := by
  refine h.invariant (P := fun s => Sound L (recovered L d) s ∧ Room s)
    ⟨sound_run hd .nil, ?_⟩ fun t a u ht hstep => ⟨ht.1.step hstep.1, ?_⟩
  · exact (inv_booting hd).room_of_quiet rfl (Nat.zero_le _)
  · obtain ⟨l, hinv⟩ := ht.1.2
    exact ht.2.step hinv hstep.1 hstep.2

omit [DecidableEq Tid] in
/-- While a call has something left of its budget the log has room for a block. -/
theorem Room.lt_logsize (h : Room s) {t : Tid} {blocks : List BlockNo}
    (ht : s.thread t = .inside blocks) (hlen : blocks.length < MAXOPBLOCKS) :
    s.lh.length < LOGSIZE := by
  have hle : (s.thread t).reserve ≤ ∑ u, (s.thread u).reserve :=
    Finset.single_le_sum (f := fun u => (s.thread u).reserve) (fun _ _ => Nat.zero_le _)
      (Finset.mem_univ t)
  have hres : (s.thread t).reserve = MAXOPBLOCKS - blocks.length := by rw [ht]; rfl
  have hroom := h.room
  omega

/-! ### A full log -/

omit [DecidableEq Tid] [Fintype Tid] in
/-- `log_write` puts a new block at the end of a log that has room. -/
theorem logWrite_new {b : BlockNo} (hlen : s.lh.length < LOGSIZE)
    (hsize : s.lh.length + 1 < L.size) (hout : 0 < s.outstanding) (hb : b ∉ s.lh) :
    s.logWrite L b = some { s.bpin b with lh := s.lh ++ [b] } := by
  rw [State.logWrite, if_neg (by omega), if_neg (by omega), if_neg hb]

/-- A block outside of the log. -/
def Layout.block (L : Layout) (i : ℕ) : BlockNo := L.start + BitVec.ofNat 32 (L.size + i)

/-- The blocks after the log area are told apart by their distance from the header. -/
theorem Layout.block_sub {i : ℕ} (hsize : L.size ≤ LOGSIZE) (hi : i < LOGSIZE) :
    (L.block i - L.start).toNat = L.size + i := by
  have hs : L.size ≤ 30 := hsize
  have hi' : i < 30 := hi
  have heq : L.block i - L.start = BitVec.ofNat 32 (L.size + i) := by
    rw [block, BitVec.add_comm, BitVec.add_sub_cancel]
  rw [heq, BitVec.toNat_ofNat, Nat.mod_eq_of_lt (by omega)]

omit [DecidableEq Tid] [Fintype Tid] in
/-- While no call is in progress all budgets are kept. -/
theorem budgeted_of_outside (h : ∀ t, s.thread t = .outside) : Budgeted s := fun t blocks ht => by
  simp [h t] at ht

omit [Fintype Tid] in
/-- The boot from an empty disk leads to a running system with an empty log. -/
theorem boots (L : Layout) : ∃ as, ∃ s : State Tid,
    Runs (BudgetStep L) (booting fun _ _ => 0) as s ∧ s.phase = .running ∧
      s.committing = false ∧ s.lh = [] ∧ s.outstanding = 0 ∧ ∀ t, s.thread t = .outside := by
  have hread := Step.readHead (L := L) (s := (booting fun _ _ => 0 : State Tid)) [] rfl
    readHead_zero
  have hclear := Step.clear (L := L) (s := { (booting fun _ _ => 0 : State Tid).bread L.start
    with lh := [], phase := .install true 0 }) true rfl
  exact ⟨_, _, (Runs.single ⟨hread, budgeted_of_outside fun _ => rfl⟩).snoc
    ⟨hclear, budgeted_of_outside fun _ => rfl⟩, rfl, rfl, rfl, rfl, fun _ => rfl⟩

omit [Fintype Tid] in
/-- The first `j` of three threads have started a call. -/
theorem begin_calls (L : Layout) (e : Fin 3 → Tid) (he : Function.Injective e) (j : ℕ)
    (hj : j ≤ 3) : ∃ as s, Runs (BudgetStep L) (booting fun _ _ => 0) as s ∧
      s.phase = .running ∧ s.committing = false ∧ s.lh = [] ∧ s.outstanding = j ∧
      ∀ t, s.thread t = if ∃ i : Fin 3, i.val < j ∧ e i = t then .inside [] else .outside := by
  induction j with
  | zero =>
    obtain ⟨as, s, hrun, hphase, hcomm, hlh, hout, hthread⟩ : ∃ as, ∃ s : State Tid, _ := boots L
    exact ⟨as, s, hrun, hphase, hcomm, hlh, hout, fun t => by rw [hthread, if_neg (by simp)]⟩
  | succ j ih =>
    obtain ⟨as, s, hrun, hphase, hcomm, hlh, hout, hthread⟩ := ih (by omega)
    have hnew : ¬∃ i : Fin 3, i.val < j ∧ e i = e ⟨j, by omega⟩ := by
      rintro ⟨i, hi, heq⟩
      rw [he heq] at hi
      exact lt_irrefl _ hi
    have ht : s.thread (e ⟨j, by omega⟩) = .outside := by rw [hthread, if_neg hnew]
    have hadmit : s.Admits := by
      refine ⟨hcomm, ?_⟩
      rw [hlh, hout]
      have hnum : (j + 1) * 10 ≤ 30 := by omega
      simpa [MAXOPBLOCKS, LOGSIZE] using hnum
    have hstep := Step.beginOp (L := L) _ (.inl ht) (by rw [hphase]; rfl)
    rw [if_pos hadmit, State.beginOp, if_pos hadmit] at hstep
    have hthread' : ∀ t, (s.goto (e ⟨j, by omega⟩) (.inside [])).thread t =
        if ∃ i : Fin 3, i.val < j + 1 ∧ e i = t then .inside [] else .outside := fun t => by
      by_cases heq : t = e ⟨j, by omega⟩
      · rw [heq, thread_goto_self, if_pos ⟨⟨j, by omega⟩, Nat.lt_succ_self j, rfl⟩]
      · rw [thread_goto_of_ne _ heq, hthread]
        have hiff : (∃ i : Fin 3, i.val < j ∧ e i = t) ↔
            ∃ i : Fin 3, i.val < j + 1 ∧ e i = t := by
          constructor
          · rintro ⟨i, hi, h⟩
            exact ⟨i, by omega, h⟩
          · rintro ⟨i, hi, h⟩
            rcases Nat.lt_succ_iff_lt_or_eq.1 hi with hi | hi
            · exact ⟨i, hi, h⟩
            · exact absurd (by rw [← h, ← (Fin.ext hi : i = ⟨j, by omega⟩)]) heq
        simp only [hiff]
    refine ⟨_, _, hrun.snoc ⟨hstep, fun t blocks ht => ?_⟩, hphase, hcomm, hlh,
      congrArg (· + 1) hout, hthread'⟩
    have ht' := (hthread' t).symm.trans ht
    split at ht'
    · obtain rfl := Thread.inside.inj ht'
      exact Nat.zero_le _
    · cases ht'

/-- Three calls have put `k` blocks in the log, in turn as many as each of them may. -/
structure Filled (L : Layout) (e : Fin 3 → Tid) (k : ℕ) (s : State Tid) : Prop where
  outstanding : s.outstanding = 3
  lh : s.lh = (List.range k).map L.block
  thread : ∀ i, ∃ blocks, s.thread (e i) = .inside blocks ∧
    blocks.length = min MAXOPBLOCKS (k - MAXOPBLOCKS * i.val) ∧ ∀ b ∈ blocks, b ∈ s.lh
  others : ∀ t blocks, s.thread t = .inside blocks → ∃ i, e i = t

omit [DecidableEq Tid] [Fintype Tid] in
/-- The calls that have filled the log have kept their budgets. -/
theorem Filled.budgeted {e : Fin 3 → Tid} {k : ℕ} (h : Filled L e k s) : Budgeted s := by
  intro t blocks ht
  obtain ⟨i, rfl⟩ := h.others t blocks ht
  obtain ⟨blocks', ht', hlen, -⟩ := h.thread i
  rw [ht, Thread.inside.injEq] at ht'
  rw [ht', hlen]
  exact min_le_left _ _

omit [Fintype Tid] in
/-- While there is room, three calls can fill the log. -/
theorem fill (e : Fin 3 → Tid) (he : Function.Injective e) (hsize : L.size ≤ LOGSIZE)
    (k : ℕ) (hk : k < L.size) :
    ∃ as s, Runs (BudgetStep L) (booting fun _ _ => 0) as s ∧ Filled L e k s := by
  have hs : L.size ≤ 30 := hsize
  induction k with
  | zero =>
    obtain ⟨as, s, hrun, -, -, hlh, hout, hthread⟩ := begin_calls L e he 3 le_rfl
    refine ⟨as, s, hrun, hout, hlh, fun i => ⟨[], ?_, by simp, by simp⟩, fun t blocks ht => ?_⟩
    · rw [hthread, if_pos ⟨i, i.isLt, rfl⟩]
    · rw [hthread] at ht
      split at ht
      · rename_i h
        exact ⟨h.choose, h.choose_spec.2⟩
      · cases ht
  | succ k ih =>
    obtain ⟨as, s, hrun, hfill⟩ := ih (by omega)
    obtain ⟨i, hi⟩ : ∃ i : Fin 3, i.val = k / 10 := ⟨⟨k / 10, by omega⟩, rfl⟩
    obtain ⟨blocks, ht, hlen, hsub⟩ := hfill.thread i
    have hlen' : blocks.length = k % 10 := by
      have hmin : min 10 (k - 10 * i.val) = k % 10 := by omega
      exact hlen.trans hmin
    have hhome : ¬L.InLog (L.block k) := by
      rw [Layout.InLog, Layout.block_sub hsize (lt_of_lt_of_le (by omega : k < 30) le_rfl)]
      omega
    have hnot : L.block k ∉ s.lh := by
      rw [hfill.lh, List.mem_map]
      rintro ⟨m, hm, heq⟩
      rw [List.mem_range] at hm
      have hm' := Layout.block_sub (i := m) hsize (lt_of_lt_of_le (by omega : m < 30) le_rfl)
      rw [heq, Layout.block_sub hsize (lt_of_lt_of_le (by omega : k < 30) le_rfl)] at hm'
      omega
    have hnot' : L.block k ∉ blocks := fun hmem => hnot (hsub _ hmem)
    have hlhlen : s.lh.length = k := by rw [hfill.lh, List.length_map, List.length_range]
    have hwrite : (s.modify (L.block k) fun _ => 0).logWrite L (L.block k) =
        some { (s.modify (L.block k) fun _ => 0).bpin (L.block k) with
          lh := s.lh ++ [L.block k] } :=
      logWrite_new (s := s.modify (L.block k) fun _ => 0)
        (show s.lh.length < LOGSIZE from hlhlen ▸ lt_of_lt_of_le (by omega : k < 30) le_rfl)
        (show s.lh.length + 1 < L.size from hlhlen ▸ hk)
        (show 0 < s.outstanding by rw [hfill.outstanding]; decide) hnot
    have hstep := Step.store (L := L) (e i) blocks (L.block k) _ _ ht hhome hwrite
    rw [List.insert_of_not_mem hnot'] at hstep
    have hnew : Filled L e (k + 1) (State.goto { (s.modify (L.block k) fun _ => 0).bpin
        (L.block k) with lh := s.lh ++ [L.block k] } (e i) (.inside (L.block k :: blocks))) := by
      refine ⟨hfill.outstanding, ?_, fun j => ?_, fun t bs ht' => ?_⟩
      · change s.lh ++ [L.block k] = _
        rw [hfill.lh, List.range_succ, List.map_append]
        rfl
      · by_cases hij : j = i
        · subst hij
          refine ⟨L.block k :: blocks, thread_goto_self _ _, ?_, fun b hb => ?_⟩
          · have hmin : k % 10 + 1 = min 10 (k + 1 - 10 * j.val) := by omega
            rw [List.length_cons, hlen']
            exact hmin
          · change b ∈ s.lh ++ [L.block k]
            rcases List.mem_cons.1 hb with rfl | hb
            · simp
            · exact List.mem_append_left _ (hsub b hb)
        · obtain ⟨bs, hbs, hbslen, hbssub⟩ := hfill.thread j
          refine ⟨bs, ?_, ?_, fun b hb => List.mem_append_left _ (hbssub b hb)⟩
          · rw [thread_goto_of_ne _ fun heq => hij (he heq)]
            exact hbs
          · have hne : j.val ≠ i.val := fun heq => hij (Fin.ext heq)
            have hmin : min 10 (k - 10 * j.val) = min 10 (k + 1 - 10 * j.val) := by omega
            exact hbslen.trans hmin
      · rcases goto_inside ht' with ⟨heq, -⟩ | ⟨-, ht'⟩
        · exact ⟨i, heq.symm⟩
        · exact hfill.others t bs ht'
    exact ⟨_, _, hrun.snoc ⟨hstep, hnew.budgeted⟩, hnew⟩

/-- **The reservation needs a log area of more than `LOGSIZE` blocks.** In runs in which every
call keeps within `MAXOPBLOCKS` blocks, `log_write` never panics for a call that has not used
them all up, exactly if `log.size` is larger than `LOGSIZE`. `mkfs` makes it equal. -/
theorem logWrite_never_panics_iff (L : Layout) (hthreads : 3 ≤ Fintype.card Tid) :
    (∀ d, (∃ lh, readHead (d L.start) = some lh ∧ LhOk L lh) →
      ∀ as (s : State Tid), Runs (BudgetStep L) (booting d) as s →
      ∀ t blocks b, s.thread t = .inside blocks → blocks.length < MAXOPBLOCKS →
        s.logWrite L b ≠ none) ↔ LOGSIZE < L.size := by
  constructor
  · intro h
    by_contra hle
    rw [not_lt] at hle
    have hpos := L.size_pos
    have hs : L.size ≤ 30 := hle
    obtain ⟨e⟩ := Function.Embedding.nonempty_of_card_le
      (show Fintype.card (Fin 3) ≤ Fintype.card Tid by rwa [Fintype.card_fin])
    obtain ⟨as, s, hrun, hfill⟩ := fill e e.injective hle (L.size - 1) (by omega)
    obtain ⟨i, hi⟩ : ∃ i : Fin 3, i.val = (L.size - 1) / 10 := ⟨⟨(L.size - 1) / 10, by omega⟩, rfl⟩
    obtain ⟨blocks, ht, hlen, -⟩ := hfill.thread i
    have hlen' : blocks.length < MAXOPBLOCKS := by
      have hmin : min 10 (L.size - 1 - 10 * i.val) < 10 := by omega
      exact hlen ▸ hmin
    refine h (fun _ _ => 0) ⟨[], readHead_zero, LhOk.nil L⟩ as s hrun (e i) blocks 0 ht
      hlen' ?_
    have hlhlen : s.lh.length = L.size - 1 := by
      rw [hfill.lh, List.length_map, List.length_range]
    rw [State.logWrite, if_pos (.inr (by omega))]
  · intro hsize d hd as s hrun t blocks b ht hlen
    obtain ⟨⟨-, l, hinv⟩, hroom⟩ := room_run hd hrun
    have hlt := hroom.lt_logsize ht hlen
    have hpos := (hinv.running (t := t) (by simp [ht, Thread.isInside])).2
    rw [State.logWrite, if_neg (by omega), if_neg (by omega)]
    split <;> simp

/-- With the `NPROC` threads of the system and the log that `mkfs` makes. -/
theorem logWrite_never_panics_mkfs :
    ¬∀ d, (∃ lh, readHead (d mkfs.start) = some lh ∧ LhOk mkfs lh) →
      ∀ as (s : State (Fin 64)), Runs (BudgetStep mkfs) (booting d) as s →
      ∀ t blocks b, s.thread t = .inside blocks → blocks.length < MAXOPBLOCKS →
        s.logWrite mkfs b ≠ none := fun h =>
  absurd ((logWrite_never_panics_iff mkfs (by decide)).1 h) (by decide)

end OsLabs.Xv6Log
