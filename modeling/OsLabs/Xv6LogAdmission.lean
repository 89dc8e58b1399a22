import OsLabs.Xv6LogCrash

/-!
# Admission to the Log

`begin_op` lets a system call in only if the log has room for `MAXOPBLOCKS` blocks of each
call in progress, and makes it sleep otherwise.

A sleeper is never forgotten: while a thread sleeps, the condition it waits for is false
(`Waiting`), and the calls in progress can always be brought to their ends, with the commit
that follows, so that every thread can be let in.

## Main results

* `Waiting.step`, `asleep_blocked`: no wakeup is lost.
* `settle`, `can_enter`: a commit or a recovery can always end; any thread can get in.
-/

namespace OsLabs.Xv6Log

variable {Tid : Type} [DecidableEq Tid] [Fintype Tid] {L : Layout} {base d : Disk}
  {s s' : State Tid} {l : Ledger Tid BlockNo Block} {as : List (Action Tid BlockNo Block)}

/-! ### Sleepers -/

/-- **Who waits for what**: a sleeper for a log that admits it, and the end of the commit for the
one thread that commits. -/
structure Waiting (s : State Tid) : Prop where
  boot : s.phase.recovering = true → ∀ t, s.thread t = .outside
  committer : s.committing = true → ∃ t, s.thread t = .committing
  committing : ∀ t, s.thread t = .committing → s.committing = true
  unique : ∀ t u, s.thread t = .committing → s.thread u = .committing → t = u
  asleep : ∀ t, s.thread t = .asleep → ¬s.Admits

omit [DecidableEq Tid] [Fintype Tid] in
/-- Nothing that a sleeper or the commit depends on changes. -/
theorem Waiting.congr (h : Waiting s) (hthread : s'.thread = s.thread) (hlh : s'.lh = s.lh)
    (hout : s'.outstanding = s.outstanding) (hcomm : s'.committing = s.committing)
    (hphase : s'.phase.recovering = true → s.phase.recovering = true) : Waiting s' where
  boot hr := by
    rw [hthread]
    exact h.boot (hphase hr)
  committer hc := by
    rw [hthread]
    exact h.committer (hcomm ▸ hc)
  committing := by
    rw [hthread, hcomm]
    exact h.committing
  unique := by
    rw [hthread]
    exact h.unique
  asleep := by
    simp only [hthread, State.Admits, hlh, hout, hcomm]
    exact h.asleep

omit [DecidableEq Tid] [Fintype Tid] in
/-- After `wakeup(&log)` nobody sleeps, as all of them wait on the one channel. -/
theorem wakeup_ne_asleep (t : Tid) : s.wakeup.thread t ≠ .asleep := by
  simp only [State.wakeup]
  split
  · simp
  · assumption

omit [DecidableEq Tid] [Fintype Tid] in
/-- A thread that commits after `wakeup(&log)` has done so before. -/
theorem wakeup_committing {t : Tid} (h : s.wakeup.thread t = .committing) :
    s.thread t = .committing := by
  simp only [State.wakeup] at h
  split at h
  · cases h
  · exact h

omit [Fintype Tid] in
/-- Who commits after a thread has moved. -/
theorem goto_committing {t u : Tid} {p : Thread} (hp : p ≠ .committing)
    (h : (s.goto t p).thread u = .committing) : u ≠ t ∧ s.thread u = .committing := by
  by_cases hut : u = t
  · subst hut
    exact absurd ((thread_goto_self u p).symm.trans h) hp
  · exact ⟨hut, by rwa [← thread_goto_of_ne p hut]⟩

omit [Fintype Tid] in
/-- A thread that does not commit may wait or look again, if it sleeps only while the log does
not admit it. -/
theorem Waiting.goto (h : Waiting s) {t : Tid} {p : Thread}
    (hboot : s.phase.recovering = false) (ht : s.thread t ≠ .committing) (hp : p ≠ .committing)
    (hasleep : p = .asleep → ¬s.Admits) : Waiting (s.goto t p) := by
  refine ⟨fun hr => absurd hr (by simp [State.goto, hboot]), fun hc => ?_,
    fun u hu => h.committing u (goto_committing hp hu).2,
    fun u v hu hv => h.unique u v (goto_committing hp hu).2 (goto_committing hp hv).2,
    fun u hu => ?_⟩
  · obtain ⟨u, hu⟩ := h.committer hc
    have hut : u ≠ t := fun heq => ht (heq ▸ hu)
    exact ⟨u, by rw [thread_goto_of_ne _ hut, hu]⟩
  · by_cases hut : u = t
    · rw [hut, thread_goto_self] at hu
      exact hasleep hu
    · exact h.asleep u (by rwa [← thread_goto_of_ne _ hut])

/-- **No step loses a wakeup**: whoever changes what a sleeper waits for also wakes it. -/
theorem Waiting.step (h : Waiting s) (hinv : Inv L base s l)
    {a : Action Tid BlockNo Block} (hstep : Step L s a s') : Waiting s' := by
  cases hstep with
  | beginOp t ht hboot =>
    have hnot : s.thread t ≠ .committing := by rcases ht with ht | ht <;> simp [ht]
    rw [State.beginOp]
    split
    · rename_i hadmit
      refine ⟨fun hr => ?_, fun hc => ?_, fun u hu => ?_, fun u v hu hv => ?_, fun u hu => ?_⟩
      · exact absurd hr (by simp [State.goto, hboot])
      · exact absurd hc (by simp [State.goto, hadmit.1])
      · exact h.committing u (goto_committing (by simp) hu).2
      · exact h.unique u v (goto_committing (by simp) hu).2 (goto_committing (by simp) hv).2
      · by_cases hut : u = t
        · subst hut
          simp [State.goto] at hu
        · exact absurd hadmit (h.asleep u (by rwa [← thread_goto_of_ne _ hut]))
    · rename_i hadmit
      exact h.goto hboot hnot (by simp) fun _ => hadmit
  | store t blocks b data s' ht hb hs' =>
    have hrun := (hinv.running (t := t) (by simp [ht, Thread.isInside])).1
    have hp := hinv.phase
    rw [hrun] at hp
    obtain ⟨-, -, hcase⟩ := logWrite_cases hs'
    have hsame : s'.thread = s.thread ∧ s'.phase = s.phase ∧ s'.committing = s.committing ∧
        s'.outstanding = s.outstanding ∧ s.lh.length ≤ s'.lh.length := by
      rcases hcase with ⟨-, rfl⟩ | ⟨-, rfl⟩
      · exact ⟨rfl, rfl, rfl, rfl, le_rfl⟩
      · refine ⟨rfl, rfl, rfl, rfl, ?_⟩
        simp [State.modify]
    obtain ⟨hthread, hph, hco, hou, hlen⟩ := hsame
    have hnone : ∀ u, (s'.goto t (.inside (blocks.insert b))).thread u = .committing →
        s.thread u = .committing := fun u hu => hthread ▸ (goto_committing (by simp) hu).2
    refine ⟨fun hr => ?_, fun hc => ?_, fun u hu => hco.trans (h.committing u (hnone u hu)),
      fun u v hu hv => h.unique u v (hnone u hu) (hnone v hv), fun u hu hadmit => ?_⟩
    · simp [State.goto, hph, hrun, Phase.recovering] at hr
    · simp [State.goto, hco, hp.2.2.1] at hc
    · by_cases hut : u = t
      · subst hut
        simp [State.goto] at hu
      · rw [thread_goto_of_ne _ hut, hthread] at hu
        refine h.asleep u hu ⟨hp.2.2.1, ?_⟩
        have hroom : s'.lh.length + (s'.outstanding + 1) * MAXOPBLOCKS ≤ LOGSIZE := hadmit.2
        rw [hou] at hroom
        omega
  | endOp t blocks s' ht hs' =>
    have hrun := (hinv.running (t := t) (by simp [ht, Thread.isInside])).1
    have hp := hinv.phase
    rw [hrun] at hp
    simp only [State.endOp, hp.2.2.1, Bool.false_eq_true, if_false] at hs'
    split at hs'
    · obtain rfl := Option.some.inj hs'
      have hself : ∀ u, (s.goto t .committing).thread u = .committing → u = t := fun u hu => by
        by_contra hut
        rw [thread_goto_of_ne _ hut] at hu
        simpa [hp.2.2.1] using h.committing u hu
      refine ⟨fun hr => ?_, fun _ => ⟨t, thread_goto_self (s := s) t .committing⟩,
        fun _ _ => rfl, fun u v hu hv => (hself u hu).trans (hself v hv).symm,
        fun u _ hadmit => ?_⟩
      · simp [Phase.recovering] at hr
      · simp [State.Admits] at hadmit
    · obtain rfl := Option.some.inj hs'
      have hnone : ∀ u, s.thread u ≠ .committing := fun u hu => by
        simpa [hp.2.2.1] using h.committing u hu
      refine ⟨fun hr => ?_, fun hc => ?_,
        fun u hu => absurd (goto_committing (by simp) (wakeup_committing hu)).2 (hnone u),
        fun u v hu => absurd (goto_committing (by simp) (wakeup_committing hu)).2 (hnone u),
        fun u hu => absurd hu (wakeup_ne_asleep u)⟩
      · simp [State.wakeup, State.goto, hrun, Phase.recovering] at hr
      · simp [State.wakeup, State.goto] at hc
  | kill t ht =>
    have hboot : s.phase.recovering = false := Bool.eq_false_iff.2 fun hr => by
      simpa [ht] using h.boot hr t
    exact h.goto hboot (by simp [ht]) (by simp) (by simp)
  | writeLog tail b hphase hb =>
    exact h.congr rfl rfl rfl rfl (by simp [Phase.recovering])
  | writeHead hphase hpos => exact h.congr rfl rfl rfl rfl (by simp [Phase.recovering])
  | commitNone hphase hnil => exact h.congr rfl rfl rfl rfl (by simp [Phase.recovering])
  | install r tail b hphase hb =>
    cases r with
    | false => exact h.congr rfl rfl rfl rfl (by simp [Phase.recovering])
    | true => exact h.congr rfl rfl rfl rfl (by simp [hphase, Phase.recovering])
  | clear r hphase =>
    have hp := hinv.phase
    rw [hphase] at hp
    cases r with
    | false =>
      refine ⟨by simp [Phase.recovering], h.committer, h.committing, h.unique,
        fun u _ hadmit => ?_⟩
      have hc : s.committing = false := hadmit.1
      simp [hp.2.2.1.committing] at hc
    | true =>
      have hout := h.boot (by simp [hphase, Phase.recovering])
      refine ⟨by simp [Phase.recovering], h.committer, h.committing, h.unique, fun u hu => ?_⟩
      have hu' : s.thread u = .asleep := hu
      simp [hout u] at hu'
  | endCommit t hphase ht =>
    have hnone : ∀ u, (s.endCommit t).thread u ≠ .committing := fun u hu => by
      obtain ⟨hut, hu⟩ := goto_committing (s := s) (by simp) (wakeup_committing hu)
      exact hut (h.unique u t hu ht)
    refine ⟨fun hr => ?_, fun hc => ?_, fun u hu => absurd hu (hnone u),
      fun u v hu => absurd hu (hnone u), fun u hu => absurd hu (wakeup_ne_asleep u)⟩
    · simp [State.endCommit, State.wakeup, Phase.recovering] at hr
    · simp [State.endCommit, State.wakeup] at hc
  | readHead lh hphase hlh =>
    have hp := hinv.phase
    rw [hphase] at hp
    have hout := h.boot (by simp [hphase, Phase.recovering])
    refine ⟨fun _ => hout, fun hc => ?_, h.committing, h.unique, fun u hu => ?_⟩
    · have hc' : s.committing = true := hc
      simp [hp.1.committing] at hc'
    · have hu' : s.thread u = .asleep := hu
      simp [hout u] at hu'
  | bread b => exact h.congr rfl rfl rfl rfl id
  | evict b hpins => exact h.congr rfl rfl rfl rfl id
  | crash =>
    exact ⟨fun _ _ => rfl, by simp [State.crash], by simp [State.crash], by simp [State.crash],
      by simp [State.crash]⟩

/-- Both invariants, with some ledger. -/
def Sound (L : Layout) (base : Disk) (s : State Tid) : Prop :=
  Waiting s ∧ ∃ l, Inv L base s l

/-- Every step keeps both invariants, the one of the log and the one of the sleepers. -/
theorem Sound.step (h : Sound L base s) {a : Action Tid BlockNo Block}
    (hstep : Step L s a s') : Sound L base s' := by
  obtain ⟨hwait, l, hinv⟩ := h
  exact ⟨hwait.step hinv hstep, _, hinv.step hstep⟩

/-- Both invariants hold after every run from a disk whose log header is in order. -/
theorem sound_run (hd : ∃ lh, readHead (d L.start) = some lh ∧ LhOk L lh)
    (h : Runs (Step L) (booting d) as s) : Sound L (recovered L d) s := by
  refine h.invariant ?_ fun t a u ht => ht.step
  exact ⟨⟨fun _ _ => rfl, by simp [booting], by simp [booting], by simp [booting],
    by simp [booting]⟩, _, inv_booting hd⟩

/-- **A sleeper waits for something.** While a thread sleeps in `begin_op`, the log does not
admit it, and some system call is in progress or some thread commits, which will wake it. -/
theorem asleep_blocked (hd : ∃ lh, readHead (d L.start) = some lh ∧ LhOk L lh)
    (h : Runs (Step L) (booting d) as s) {t : Tid} (ht : s.thread t = .asleep) :
    ¬s.Admits ∧ ((∃ u blocks, s.thread u = .inside blocks) ∨ ∃ u, s.thread u = .committing) := by
  obtain ⟨hwait, l, hinv⟩ := sound_run hd h
  refine ⟨hwait.asleep t ht, ?_⟩
  by_contra hno
  rw [not_or] at hno
  obtain ⟨hinside, hcommit⟩ := hno
  have hout : s.outstanding = 0 := by
    rw [hinv.count, Finset.card_eq_zero, Finset.filter_eq_empty_iff]
    intro u _ hu
    cases hth : s.thread u with
    | inside blocks => exact hinside ⟨u, blocks, hth⟩
    | _ => simp [hth, Thread.isInside] at hu
  have hcomm : s.committing = false := by
    by_contra hc
    exact hcommit (hwait.committer (Bool.eq_true_of_not_eq_false hc))
  have hphase := hinv.phase
  cases hp : s.phase with
  | boot => simpa [ht] using hwait.boot (by simp [hp, Phase.recovering]) t
  | running =>
    rw [hp] at hphase
    refine hwait.asleep t ht ⟨hcomm, ?_⟩
    rw [(hphase.2.2.2 hout).1, hout]
    decide
  | writeLog tail =>
    rw [hp] at hphase
    simpa [hcomm] using hphase.2.2.1.committing
  | install r tail =>
    rw [hp] at hphase
    cases r with
    | false => simpa [hcomm] using hphase.2.2.1.committing
    | true => simpa [ht] using hwait.boot (by simp [hp, Phase.recovering]) t
  | committed =>
    rw [hp] at hphase
    simpa [hcomm] using hphase.2.2.1.committing

/-- A second call during the commit of the first. -/
theorem asleep_blocked_commit : ∃ s : State (Fin 64),
    Runs (Step mkfs) (booting fun _ _ => 0) [.silent, .silent, .event (.begin 0),
      .event (.finish 0), .silent] s ∧ s.thread 1 = .asleep ∧ ¬s.Admits := by
  have hnil : Runs (Step mkfs) (booting fun _ _ => 0 : State (Fin 64)) [] _ := .nil
  have hrun := hnil.snoc (.readHead [] rfl readHead_zero) |>.snoc (.clear true rfl)
    |>.snoc (.beginOp 0 (.inl rfl) rfl) |>.snoc (.endOp 0 [] _ rfl rfl)
    |>.snoc (.beginOp 1 (.inl rfl) rfl)
  exact ⟨_, hrun, rfl, (asleep_blocked ⟨[], readHead_zero, LhOk.nil mkfs⟩ hrun (t := 1) rfl).1⟩

/-! ### Commits and recoveries end -/

/-- The steps that bring the calls in progress to their ends. -/
def Winding (L : Layout) (s : State Tid) (a : Action Tid BlockNo Block) (s' : State Tid) :
    Prop :=
  Step L s a s' ∧ (a = .silent ∨ a = .commit ∨ ∃ t, a = .event (.finish t))

/-- They hold at the end of a run that only brings calls to their ends, too. -/
theorem Sound.winding (h : Sound L base s) (hrun : Runs (Winding L) s as s') :
    Sound L base s' :=
  hrun.invariant h fun _ _ _ ht hstep => ht.step hstep.1

/-- `install_trans` and the clearing of the log can run to their end. -/
theorem install_ends (k : ℕ) {r : Bool} {tail : ℕ} (h : Sound L base s)
    (hphase : s.phase = .install r tail) (hk : s.lh.length = tail + k) :
    ∃ as s', Runs (Winding L) s as s' ∧ s'.phase = (if r then .running else .committed) ∧
      s'.outstanding = s.outstanding := by
  induction k generalizing s tail with
  | zero =>
    rw [Nat.add_zero] at hk
    rw [← hk] at hphase
    exact ⟨_, _, .single ⟨.clear r hphase, .inl rfl⟩, rfl, rfl⟩
  | succ k ih =>
    have hlt : tail < s.lh.length := by omega
    have hstep := Step.install (L := L) r tail _ hphase (List.getElem?_eq_getElem hlt)
    have hlh : (s.installTurn L r tail s.lh[tail]).lh = s.lh := by cases r <;> rfl
    have hout : (s.installTurn L r tail s.lh[tail]).outstanding = s.outstanding := by
      cases r <;> rfl
    have hk' : (s.installTurn L r tail s.lh[tail]).lh.length = tail + 1 + k := by
      rw [hlh]
      omega
    obtain ⟨as, s', hrun, hend, hsame⟩ := ih (h.step hstep) rfl hk'
    exact ⟨_, s', (Runs.single ⟨hstep, .inl rfl⟩).trans hrun, hend, hsame.trans hout⟩

/-- `commit` can run to its end, by induction on the blocks that it has still to write to the
log. -/
theorem commit_ends (k : ℕ) {tail : ℕ} (h : Sound L base s)
    (hphase : s.phase = .writeLog tail) (hk : s.lh.length = tail + k) :
    ∃ as s', Runs (Winding L) s as s' ∧ s'.phase = .committed ∧
      s'.outstanding = s.outstanding := by
  induction k generalizing s tail with
  | zero =>
    rw [Nat.add_zero] at hk
    by_cases hnil : s.lh = []
    · have hstep := Step.commitNone (L := L) (by rw [hphase, ← hk, hnil]; rfl) hnil
      exact ⟨_, _, .single ⟨hstep, .inr (.inl rfl)⟩, rfl, rfl⟩
    · have hstep := Step.writeHead (L := L) (hk ▸ hphase) hnil
      obtain ⟨as, s', hrun, hend, hsame⟩ :=
        install_ends s.lh.length (h.step hstep) rfl (Nat.zero_add _).symm
      exact ⟨_, s', (Runs.single ⟨hstep, .inr (.inl rfl)⟩).trans hrun, hend, hsame⟩
  | succ k ih =>
    have hlt : tail < s.lh.length := by omega
    have hstep := Step.writeLog (L := L) tail _ hphase (List.getElem?_eq_getElem hlt)
    obtain ⟨as, s', hrun, hend, hsame⟩ := ih (h.step hstep) rfl
      (show s.lh.length = tail + 1 + k by omega)
    exact ⟨_, s', (Runs.single ⟨hstep, .inl rfl⟩).trans hrun, hend, hsame⟩

/-- **A commit or a recovery under way can run to its end.** -/
theorem settle (h : Sound L base s) : ∃ as s', Runs (Winding L) s as s' ∧
    s'.phase = .running ∧ s'.outstanding = s.outstanding := by
  -- the end of a commit is `endCommit` by the thread that commits
  have hdone : ∀ {u : State Tid}, Sound L base u → u.phase = .committed →
      ∃ as s', Runs (Winding L) u as s' ∧ s'.phase = .running ∧
        s'.outstanding = u.outstanding := by
    intro u hu hphase
    obtain ⟨l, hinv⟩ := hu.2
    have hp := hinv.phase
    rw [hphase] at hp
    obtain ⟨t, ht⟩ := hu.1.committer hp.2.2.1.committing
    exact ⟨_, _, .single ⟨.endCommit t hphase ht, .inl rfl⟩, rfl, rfl⟩
  obtain ⟨l, hinv⟩ := h.2
  have hp := hinv.phase
  cases hphase : s.phase with
  | boot =>
    rw [hphase] at hp
    obtain ⟨lh, hhead, -⟩ := hinv.header
    have hstep := Step.readHead (L := L) lh hphase
      (by rw [hinv.clean _ (hp.2.1 _)]; exact hhead)
    obtain ⟨as, s', hrun, hend, hsame⟩ :=
      install_ends lh.length (h.step hstep) rfl (Nat.zero_add _).symm
    exact ⟨_, s', (Runs.single ⟨hstep, .inl rfl⟩).trans hrun, hend, hsame⟩
  | running => exact ⟨[], s, .nil, hphase, rfl⟩
  | writeLog tail =>
    rw [hphase] at hp
    obtain ⟨as, u, hrun, hend, hsame⟩ := commit_ends (s.lh.length - tail) h hphase
      (by have := hp.2.2.2.1; omega)
    obtain ⟨bs, s', hrun', hend', hsame'⟩ := hdone (h.winding hrun) hend
    exact ⟨_, s', hrun.trans hrun', hend', hsame'.trans hsame⟩
  | install r tail =>
    rw [hphase] at hp
    have hle : tail ≤ s.lh.length := by cases r <;> exact hp.2.1.le
    obtain ⟨as, u, hrun, hend, hsame⟩ := install_ends (s.lh.length - tail) h hphase
      (by omega)
    cases r with
    | false =>
      obtain ⟨bs, s', hrun', hend', hsame'⟩ := hdone (h.winding hrun) hend
      exact ⟨_, s', hrun.trans hrun', hend', hsame'.trans hsame⟩
    | true => exact ⟨_, u, hrun, hend, hsame⟩
  | committed => exact hdone h hphase

/-- `end_op` does not find a commit under way. -/
theorem endOp_ne_none (h : Inv L base s l) {t : Tid} {blocks : List BlockNo}
    (ht : s.thread t = .inside blocks) : ∃ s', s.endOp t = some s' := by
  have hrun := (h.running (t := t) (by simp [ht, Thread.isInside])).1
  have hp := h.phase
  rw [hrun] at hp
  simp only [State.endOp, hp.2.2.1, Bool.false_eq_true, if_false]
  split
  · exact ⟨_, rfl⟩
  · exact ⟨_, rfl⟩

/-- All calls in progress can end, with the commits that this takes, by induction on their
number. -/
theorem wind_down (k : ℕ) (h : Sound L base s) (hk : s.outstanding = k) :
    ∃ as s', Runs (Winding L) s as s' ∧ s'.phase = .running ∧ s'.outstanding = 0 := by
  induction k generalizing s with
  | zero =>
    obtain ⟨as, s', hrun, hend, hsame⟩ := settle h
    exact ⟨as, s', hrun, hend, hsame.trans hk⟩
  | succ k ih =>
    obtain ⟨l, hinv⟩ := h.2
    have hpos : 0 < (Finset.univ.filter fun t => (s.thread t).isInside).card := by
      rw [← hinv.count]
      omega
    obtain ⟨t, ht⟩ := Finset.card_pos.1 hpos
    rw [Finset.mem_filter_univ] at ht
    cases hth : s.thread t with
    | inside blocks =>
      obtain ⟨u, hu⟩ := endOp_ne_none hinv hth
      have hstep := Step.endOp (L := L) t blocks u hth hu
      have hout : u.outstanding = k := by
        simp only [State.endOp] at hu
        split at hu
        · cases hu
        · split at hu <;>
          · obtain rfl := Option.some.inj hu
            simp [State.goto, State.wakeup, hk]
      obtain ⟨as, s', hrun, hend, hzero⟩ := ih (h.step hstep) hout
      exact ⟨_, s', (Runs.single ⟨hstep, .inr (.inr ⟨t, rfl⟩)⟩).trans hrun, hend, hzero⟩
    | _ => simp [hth, Thread.isInside] at ht

/-- **Any thread can get in.** From every state that a run reaches, the calls in progress and
the commit or recovery under way can be brought to their ends, and then `begin_op` admits
whichever thread calls it or looks again. -/
theorem can_enter (hd : ∃ lh, readHead (d L.start) = some lh ∧ LhOk L lh)
    (h : Runs (Step L) (booting d) as s) :
    ∃ bs u, Runs (Winding L) s bs u ∧ u.phase = .running ∧ u.outstanding = 0 ∧
      ∀ t, ∃ v, Step L u (.event (.begin t)) v ∧ v.thread t = .inside [] := by
  have hs := sound_run hd h
  obtain ⟨bs, u, hrun, hphase, hout⟩ := wind_down s.outstanding hs rfl
  refine ⟨bs, u, hrun, hphase, hout, fun t => ?_⟩
  have hu := hs.winding hrun
  obtain ⟨l, hinv⟩ := hu.2
  have hp := hinv.phase
  rw [hphase] at hp
  have hadmit : u.Admits := by
    refine ⟨hp.2.2.1, ?_⟩
    rw [(hp.2.2.2 hout).1, hout]
    decide
  have ht : u.thread t = .outside ∨ u.thread t = .trying := by
    cases hth : u.thread t with
    | outside => exact .inl rfl
    | trying => exact .inr rfl
    | asleep => exact absurd hadmit (hu.1.asleep t hth)
    | inside blocks =>
      have := (hinv.running (t := t) (by simp [hth, Thread.isInside])).2
      omega
    | committing => simpa [hp.2.2.1] using hu.1.committing t hth
  have hstep := Step.beginOp (L := L) t ht (by rw [hphase]; rfl)
  rw [if_pos hadmit] at hstep
  refine ⟨_, hstep, ?_⟩
  rw [State.beginOp, if_pos hadmit]
  exact thread_goto_self (s := u) t (.inside [])

/-- The thread that sleeps in `asleep_blocked_commit` gets in once the commit has ended. -/
theorem can_enter_commit : ∃ s : State (Fin 64), s.thread 1 = .asleep ∧
    ∃ bs u, Runs (Winding mkfs) s bs u ∧ u.phase = .running ∧ u.outstanding = 0 ∧
      ∀ t, ∃ v, Step mkfs u (.event (.begin t)) v ∧ v.thread t = .inside [] := by
  have hnil : Runs (Step mkfs) (booting fun _ _ => 0 : State (Fin 64)) [] _ := .nil
  have hrun := hnil.snoc (.readHead [] rfl readHead_zero) |>.snoc (.clear true rfl)
    |>.snoc (.beginOp 0 (.inl rfl) rfl) |>.snoc (.endOp 0 [] _ rfl rfl)
    |>.snoc (.beginOp 1 (.inl rfl) rfl)
  exact ⟨_, rfl, can_enter ⟨[], readHead_zero, LhOk.nil mkfs⟩ hrun⟩

end OsLabs.Xv6Log
