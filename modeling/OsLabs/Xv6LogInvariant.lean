import OsLabs.Xv6LogDisk

/-!
# The Invariant of the Log

`recovered`, what the recovery will leave of the disk, is the durable part of the ledger of
`OsLabs.Transactions` at every moment. While the system runs, what `bread` finds is the whole
history, with the blocks that are not on the disk yet pinned in the cache. The threads that
`log.outstanding` counts are those with an open transaction.

## Main results

* `Inv`: the invariant, with what holds in each phase of a commit or a recovery.
* `Inv.beginOp`, `Inv.store`, `Inv.endOp`: the system calls keep it.
-/

namespace OsLabs.Xv6Log

/-! ### The invariant -/

section

variable {Tid : Type} (L : Layout) (base : Disk) (s : State Tid)
  (l : Ledger Tid BlockNo Block)

/-- While the system runs: the file system reads as the history says, and the blocks of
the transaction from `tail` on are pinned. -/
structure Reads (tail : ℕ) : Prop where
  ok : LhOk L s.lh
  pins : ∀ b, s.pins b = if b ∈ s.lh.drop tail then 1 else 0
  view : ∀ b, ¬L.InLog b → s.view b = replay base l.history b

/-- The log on the disk is `lh`, and its first `tail` blocks are home. -/
structure Installed (tail : ℕ) : Prop where
  head : readHead (s.disk L.start) = some s.lh
  ok : LhOk L s.lh
  le : tail ≤ s.lh.length
  home : ∀ i < tail, ∀ b, s.lh[i]? = some b → s.disk b = s.disk (L.logBlock i)

/-- Nobody is in a system call, and the flag says whether one thread is committing. -/
structure Quiet (committing : Bool) : Prop where
  outstanding : s.outstanding = 0
  committing : s.committing = committing

/-- What holds in each phase. -/
def PhaseInv : Phase → Prop
  | .boot => Quiet s false ∧ (∀ b, s.pins b = 0) ∧ l.history = l.durable
  | .running => Reads L base s l 0 ∧ readHead (s.disk L.start) = some [] ∧
      s.committing = false ∧ (s.outstanding = 0 → s.lh = [] ∧ l.history = l.durable)
  | .writeLog tail => Reads L base s l 0 ∧ readHead (s.disk L.start) = some [] ∧
      Quiet s true ∧ tail ≤ s.lh.length ∧
      ∀ i < tail, ∀ b, s.lh[i]? = some b → s.disk (L.logBlock i) = s.view b
  | .install false tail => Reads L base s l tail ∧ Installed L s tail ∧ Quiet s true ∧
      l.history = l.durable
  | .install true tail => (∀ b, s.pins b = 0) ∧ Installed L s tail ∧ Quiet s false ∧
      l.history = l.durable
  | .committed => Reads L base s l 0 ∧ readHead (s.disk L.start) = some [] ∧
      Quiet s true ∧ s.lh = [] ∧ l.history = l.durable

/-- **The invariant of the log**: the ledger, its durable part and what the recovery would leave
of the disk, who is in a call, which blocks are pinned, and what the phase of the commit or the
recovery adds. -/
structure Inv [DecidableEq Tid] [Fintype Tid] : Prop where
  durable : l.durable <+: l.history
  closed : Closed l.durable
  opens : ∀ t, isOpen t l.history = (s.thread t).isInside
  count : s.outstanding = (Finset.univ.filter fun t => (s.thread t).isInside).card
  clean : ∀ b, s.pins b = 0 → s.view b = s.disk b
  header : ∃ lh, readHead (s.disk L.start) = some lh ∧ LhOk L lh
  recovered : ∀ b, ¬L.InLog b → recovered L s.disk b = replay base l.durable b
  phase : PhaseInv L base s l s.phase

end

section

variable {Tid : Type} [DecidableEq Tid] [Fintype Tid] {L : Layout} {base : Disk}
  {s s' : State Tid} {l : Ledger Tid BlockNo Block}

/-! ### Threads -/

omit [Fintype Tid] in
/-- A thread that continues at `p` is at `p`. -/
@[simp] theorem thread_goto_self (t : Tid) (p : Thread) : (s.goto t p).thread t = p :=
  Function.update_self ..

omit [Fintype Tid] in
/-- The other threads stay where they are. -/
theorem thread_goto_of_ne {t u : Tid} (p : Thread) (h : u ≠ t) :
    (s.goto t p).thread u = s.thread u :=
  Function.update_of_ne h ..

/-- One more thread is in a system call. -/
theorem card_inside_enter {t : Tid} {blocks : List BlockNo}
    (h : (s.thread t).isInside = false) :
    (Finset.univ.filter fun u => ((s.goto t (.inside blocks)).thread u).isInside).card =
      (Finset.univ.filter fun u => (s.thread u).isInside).card + 1 := by
  have hcard := card_filter_update Thread.isInside s.thread t (.inside blocks)
  rwa [h] at hcard

/-- One thread less is in a system call. -/
theorem card_inside_leave {t : Tid} {p : Thread} (h : (s.thread t).isInside = true)
    (hp : p.isInside = false) :
    (Finset.univ.filter fun u => ((s.goto t p).thread u).isInside).card =
      (Finset.univ.filter fun u => (s.thread u).isInside).card - 1 := by
  have hcard := card_filter_update Thread.isInside s.thread t p
  rw [h, hp] at hcard
  exact Nat.eq_sub_of_add_eq hcard

omit [DecidableEq Tid] [Fintype Tid] in
/-- A wakeup changes nothing about who is in a system call. -/
@[simp] theorem wakeup_isInside (t : Tid) :
    (s.wakeup.thread t).isInside = (s.thread t).isInside := by
  simp only [State.wakeup]
  split
  · rename_i h
    rw [h]
    rfl
  · rfl

/-- The invariant only sees the cache through `view`, and only sees which threads are in a
system call. -/
theorem Inv.congr (h : Inv L base s l) (hdisk : s'.disk = s.disk) (hview : s'.view = s.view)
    (hpins : s'.pins = s.pins) (hlh : s'.lh = s.lh) (hout : s'.outstanding = s.outstanding)
    (hcomm : s'.committing = s.committing) (hphase : s'.phase = s.phase)
    (hthread : ∀ t, (s'.thread t).isInside = (s.thread t).isInside) : Inv L base s' l where
  durable := h.durable
  closed := h.closed
  opens t := (h.opens t).trans (hthread t).symm
  count := by
    simp only [hthread, hout]
    exact h.count
  clean := by
    rw [hpins, hview, hdisk]
    exact h.clean
  header := by
    rw [hdisk]
    exact h.header
  recovered := by
    rw [hdisk]
    exact h.recovered
  phase := by
    have hreads : ∀ tail, Reads L base s l tail → Reads L base s' l tail := fun tail hr =>
      ⟨hlh ▸ hr.ok, by rw [hpins, hlh]; exact hr.pins, by rw [hview]; exact hr.view⟩
    have hinst : ∀ tail, Installed L s tail → Installed L s' tail := fun tail hi =>
      ⟨by rw [hdisk, hlh]; exact hi.head, hlh ▸ hi.ok, hlh ▸ hi.le,
        by rw [hdisk, hlh]; exact hi.home⟩
    have hquiet : ∀ c, Quiet s c → Quiet s' c := fun c hq =>
      ⟨hout.trans hq.outstanding, hcomm.trans hq.committing⟩
    have hp := h.phase
    rw [hphase]
    cases hs : s.phase with
    | boot =>
      rw [hs] at hp
      exact ⟨hquiet _ hp.1, by rw [hpins]; exact hp.2.1, hp.2.2⟩
    | running =>
      rw [hs] at hp
      exact ⟨hreads _ hp.1, by rw [hdisk]; exact hp.2.1, hcomm.trans hp.2.2.1,
        by rw [hout, hlh]; exact hp.2.2.2⟩
    | writeLog tail =>
      rw [hs] at hp
      exact ⟨hreads _ hp.1, by rw [hdisk]; exact hp.2.1, hquiet _ hp.2.2.1,
        by rw [hlh]; exact hp.2.2.2.1, by rw [hlh, hdisk, hview]; exact hp.2.2.2.2⟩
    | install r tail =>
      rw [hs] at hp
      cases r with
      | false => exact ⟨hreads _ hp.1, hinst _ hp.2.1, hquiet _ hp.2.2.1, hp.2.2.2⟩
      | true =>
        exact ⟨by rw [hpins]; exact hp.1, hinst _ hp.2.1, hquiet _ hp.2.2.1, hp.2.2.2⟩
    | committed =>
      rw [hs] at hp
      exact ⟨hreads _ hp.1, by rw [hdisk]; exact hp.2.1, hquiet _ hp.2.2.1,
        hlh.trans hp.2.2.2.1, hp.2.2.2.2⟩

/-- A thread that does not enter or leave a system call may continue anywhere. -/
theorem Inv.goto (h : Inv L base s l) {t : Tid} {p : Thread}
    (hp : p.isInside = (s.thread t).isInside) : Inv L base (s.goto t p) l := by
  refine h.congr rfl rfl rfl rfl rfl rfl rfl fun u => ?_
  by_cases hu : u = t
  · rw [hu, thread_goto_self, hp]
  · rw [thread_goto_of_ne _ hu]

/-- A thread in a system call holds off every commit. -/
theorem Inv.running (h : Inv L base s l) {t : Tid} (ht : (s.thread t).isInside = true) :
    s.phase = .running ∧ 0 < s.outstanding := by
  have hpos : 0 < s.outstanding := by
    rw [h.count]
    exact Finset.card_pos.2 ⟨t, by simp [ht]⟩
  refine ⟨?_, hpos⟩
  have hphase := h.phase
  cases hp : s.phase with
  | running => rfl
  | boot =>
    rw [hp] at hphase
    have := hphase.1.outstanding
    omega
  | writeLog tail =>
    rw [hp] at hphase
    have := hphase.2.2.1.outstanding
    omega
  | install r tail =>
    rw [hp] at hphase
    cases r with
    | false =>
      have := hphase.2.2.1.outstanding
      omega
    | true =>
      have := hphase.2.2.1.outstanding
      omega
  | committed =>
    rw [hp] at hphase
    have := hphase.2.2.1.outstanding
    omega

/-- Without a system call in progress no transaction is open. -/
theorem Inv.closed_history (h : Inv L base s l) (hout : s.outstanding = 0) :
    Closed l.history := fun t => by
  rw [h.opens t]
  by_contra hne
  have := (h.running (Bool.eq_true_of_not_eq_false hne)).2
  omega

/-! ### System calls -/

/-- `begin_op` opens a transaction of the history if it admits the thread, and else the
thread only falls asleep. -/
theorem Inv.beginOp (h : Inv L base s l) {t : Tid}
    (ht : s.thread t = .outside ∨ s.thread t = .trying)
    (hboot : s.phase.recovering = false) :
    Inv L base (s.beginOp t) (l.act (if s.Admits then .event (.begin t) else .silent)) := by
  have hout : (s.thread t).isInside = false := by
    rcases ht with ht | ht <;> simp [ht, Thread.isInside]
  by_cases hadmit : s.Admits
  · rw [if_pos hadmit, State.beginOp, if_pos hadmit]
    have hphase := h.phase
    have hrun : s.phase = .running := by
      cases hp : s.phase with
      | running => rfl
      | boot => simp [hp, Phase.recovering] at hboot
      | writeLog tail =>
        rw [hp] at hphase
        simp [hphase.2.2.1.committing, State.Admits] at hadmit
      | install r tail =>
        cases r with
        | false =>
          rw [hp] at hphase
          simp [hphase.2.2.1.committing, State.Admits] at hadmit
        | true => simp [hp, Phase.recovering] at hboot
      | committed =>
        rw [hp] at hphase
        simp [hphase.2.2.1.committing, State.Admits] at hadmit
    rw [hrun] at hphase
    obtain ⟨hreads, hhead, hcomm, -⟩ := hphase
    exact
      { durable := Ledger.act_prefix _ h.durable
        closed := h.closed
        opens := fun u => by
          rw [Ledger.act, isOpen_append_singleton, Event.opens]
          change _ = ((s.goto t (.inside [])).thread u).isInside
          by_cases hu : u = t
          · rw [if_pos hu.symm, hu, thread_goto_self]
            rfl
          · rw [if_neg (Ne.symm hu), thread_goto_of_ne _ hu]
            exact h.opens u
        count := by
          change s.outstanding + 1 =
            (Finset.univ.filter fun u => ((s.goto t (.inside [])).thread u).isInside).card
          rw [card_inside_enter hout, ← h.count]
        clean := h.clean
        header := h.header
        recovered := h.recovered
        phase := by
          rw [show ({ s.goto t (.inside []) with
            outstanding := s.outstanding + 1 } : State Tid).phase = .running from hrun]
          refine ⟨⟨hreads.ok, hreads.pins, fun b hb => ?_⟩, hhead, hcomm, fun hzero => ?_⟩
          · rw [Ledger.act, replay_append_singleton]
            exact hreads.view b hb
          · simp at hzero }
  · rw [if_neg hadmit, State.beginOp, if_neg hadmit]
    exact h.goto hout.symm

omit [DecidableEq Tid] [Fintype Tid] in
/-- What `log_write` does when it does not panic. -/
theorem logWrite_cases {b : BlockNo} (h : s.logWrite L b = some s') :
    s.lh.length < LOGSIZE ∧ s.lh.length + 1 < L.size ∧
      ((b ∈ s.lh ∧ s' = s) ∨ (b ∉ s.lh ∧ s' = { s.bpin b with lh := s.lh ++ [b] })) := by
  simp only [State.logWrite] at h
  split at h
  · cases h
  · rename_i hfull
    rw [not_or, not_le, not_le] at hfull
    split at h
    · cases h
    · refine ⟨hfull.1, hfull.2, ?_⟩
      split at h
      · rename_i hmem
        exact .inl ⟨hmem, (Option.some.inj h).symm⟩
      · rename_i hmem
        exact .inr ⟨hmem, (Option.some.inj h).symm⟩

omit [DecidableEq Tid] [Fintype Tid] in
/-- `log_write` pins the block if it is not in the transaction yet. -/
theorem logWrite_spec {b : BlockNo} (h : s.logWrite L b = some s') (hok : LhOk L s.lh)
    (hb : ¬L.InLog b) (hpins : ∀ a, s.pins a = if a ∈ s.lh then 1 else 0) :
    LhOk L s'.lh ∧ b ∈ s'.lh ∧ (∀ a, s'.pins a = if a ∈ s'.lh then 1 else 0) ∧
      (∀ a, s.pins a ≠ 0 → s'.pins a ≠ 0) ∧ s'.view = s.view ∧ s'.disk = s.disk ∧
      s'.thread = s.thread ∧ s'.phase = s.phase ∧ s'.committing = s.committing ∧
      s'.outstanding = s.outstanding := by
  obtain ⟨hlen, hsize, ⟨hmem, rfl⟩ | ⟨hmem, rfl⟩⟩ := logWrite_cases h
  · exact ⟨hok, hmem, hpins, fun a ha => ha, rfl, rfl, rfl, rfl, rfl, rfl⟩
  · have hpins' : ∀ a, (Function.update s.pins b (s.pins b + 1)) a =
        if a ∈ s.lh ++ [b] then 1 else 0 := fun a => by
      by_cases ha : a = b
      · subst ha
        simp [hpins a, hmem]
      · simp [hpins a, ha]
    refine ⟨⟨?_, ?_, ?_, ?_⟩, by simp, hpins', fun a ha => ?_, rfl, rfl, rfl, rfl, rfl, rfl⟩
    · exact List.nodup_append.2 ⟨hok.nodup, List.nodup_singleton b, fun a ha c hc heq => by
        rw [List.mem_singleton] at hc
        exact hmem (hc ▸ heq ▸ ha)⟩
    · intro a ha
      rcases List.mem_append.1 ha with ha | ha
      · exact hok.home a ha
      · rw [List.mem_singleton.1 ha]
        exact hb
    · rw [List.length_append]
      exact hlen
    · rw [List.length_append]
      exact hsize
    · by_cases hab : a = b
      · subst hab
        simp [State.bpin]
      · simpa [State.bpin, Function.update_of_ne hab] using ha

/-- A write of a block by a system call is read from then on, and its block is pinned until
the commit. -/
theorem Inv.store (h : Inv L base s l) {t : Tid} {blocks : List BlockNo} {b : BlockNo}
    {data : Block} (ht : s.thread t = .inside blocks) (hb : ¬L.InLog b)
    (hs' : (s.modify b data).logWrite L b = some s') :
    Inv L base (s'.goto t (.inside (blocks.insert b)))
      (l.act (.event (.store t b data))) := by
  have hin : (s.thread t).isInside = true := by simp [ht, Thread.isInside]
  obtain ⟨hrun, hpos⟩ := h.running hin
  have hphase := h.phase
  rw [hrun] at hphase
  obtain ⟨hreads, hhead, hcomm, -⟩ := hphase
  obtain ⟨hok, hmem, hpins, hmono, hview, hdisk, hthread, hph, hco, hou⟩ :=
    logWrite_spec hs' hreads.ok hb hreads.pins
  rw [State.view_modify] at hview
  have hthread' : ∀ u, ((s'.goto t (.inside (blocks.insert b))).thread u).isInside =
      (s.thread u).isInside := fun u => by
    by_cases hu : u = t
    · rw [hu, thread_goto_self, hin]
      rfl
    · rw [thread_goto_of_ne _ hu, hthread]
      rfl
  refine
    { durable := Ledger.act_prefix _ h.durable
      closed := h.closed
      opens := fun u => ?_
      count := ?_
      clean := fun a ha => ?_
      header := by
        change ∃ lh, readHead (s'.disk L.start) = some lh ∧ LhOk L lh
        rw [hdisk]
        exact h.header
      recovered := by
        change ∀ a, _ → Xv6Log.recovered L s'.disk a = _
        rw [hdisk]
        exact h.recovered
      phase := ?_ }
  · rw [Ledger.act, isOpen_append_singleton, hthread' u]
    exact h.opens u
  · simp only [hthread']
    exact (hou.trans h.count)
  · have hab : a ≠ b := fun heq => by
      have hone := hpins b
      rw [if_pos hmem] at hone
      rw [heq] at ha
      exact absurd (ha.symm.trans hone) (by decide)
    have ha' : s.pins a = 0 := by
      by_contra hne
      exact hmono a hne ha
    change s'.view a = s'.disk a
    rw [hview, hdisk, Function.update_of_ne hab]
    exact h.clean a ha'
  · change PhaseInv L base _ _ s'.phase
    rw [hph.trans hrun]
    refine ⟨⟨hok, hpins, fun a ha => ?_⟩, ?_, hco.trans hcomm, fun hzero => ?_⟩
    · change s'.view a = _
      rw [hview, Ledger.act, replay_append_singleton, Event.apply]
      by_cases hab : a = b
      · subst hab
        simp
      · rw [Function.update_of_ne hab, Function.update_of_ne hab]
        exact hreads.view a ha
    · change readHead (s'.disk L.start) = _
      rw [hdisk]
      exact hhead
    · have : s'.outstanding = 0 := hzero
      rw [hou] at this
      exact absurd this hpos.ne'

/-- `end_op` closes a transaction of the history; the last one starts the commit. -/
theorem Inv.endOp (h : Inv L base s l) {t : Tid} {blocks : List BlockNo}
    (ht : s.thread t = .inside blocks) (hs' : s.endOp t = some s') :
    Inv L base s' (l.act (.event (.finish t))) := by
  have hin : (s.thread t).isInside = true := by simp [ht, Thread.isInside]
  obtain ⟨hrun, hpos⟩ := h.running hin
  have hphase := h.phase
  rw [hrun] at hphase
  obtain ⟨hreads, hhead, hcomm, -⟩ := hphase
  -- the new state but for its phase and the threads that are woken
  have hopens : ∀ p : Thread, p.isInside = false → ∀ u,
      isOpen u (l.history ++ [.finish t]) = ((s.goto t p).thread u).isInside := by
    intro p hp u
    rw [isOpen_append_singleton, Event.opens]
    by_cases hu : u = t
    · rw [if_pos hu.symm, hu, thread_goto_self, hp]
    · rw [if_neg (Ne.symm hu), h.opens u, thread_goto_of_ne p hu]
  have hcount : ∀ p : Thread, p.isInside = false → s.outstanding - 1 =
      (Finset.univ.filter fun u => ((s.goto t p).thread u).isInside).card := by
    intro p hp
    rw [card_inside_leave hin hp, h.count]
  have hview : ∀ b, ¬L.InLog b → s.view b = replay base (l.history ++ [.finish t]) b :=
    fun b hb => by
      rw [replay_append_singleton]
      exact hreads.view b hb
  simp only [State.endOp, hcomm, Bool.false_eq_true, if_false] at hs'
  split at hs'
  · rename_i hzero
    obtain rfl := Option.some.inj hs'
    exact
      { durable := Ledger.act_prefix _ h.durable
        closed := h.closed
        opens := hopens .committing rfl
        count := hcount .committing rfl
        clean := h.clean
        header := h.header
        recovered := h.recovered
        phase := ⟨⟨hreads.ok, hreads.pins, hview⟩, hhead, ⟨hzero, rfl⟩, Nat.zero_le _,
          fun i hi => absurd hi (Nat.not_lt_zero i)⟩ }
  · rename_i hne
    obtain rfl := Option.some.inj hs'
    refine Inv.congr (s := { s.goto t .outside with outstanding := s.outstanding - 1 }) ?_
      rfl rfl rfl rfl rfl hcomm.symm rfl fun u => wakeup_isInside u
    exact
      { durable := Ledger.act_prefix _ h.durable
        closed := h.closed
        opens := hopens .outside rfl
        count := hcount .outside rfl
        clean := h.clean
        header := h.header
        recovered := h.recovered
        phase := by
          change PhaseInv L base _ _ s.phase
          rw [hrun]
          exact ⟨⟨hreads.ok, hreads.pins, hview⟩, hhead, hcomm, fun hzero => absurd hzero hne⟩ }

end

end OsLabs.Xv6Log
