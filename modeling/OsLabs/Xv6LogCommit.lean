import OsLabs.Xv6LogInvariant

/-!
# Commits and Recoveries of the Log

Each write of a commit or a recovery keeps the invariant of the log. The writes of the log
blocks do not change what the recovery will leave, since the header on the disk is empty then;
the write of the header changes it once, to the whole history; the writes home do not change
it, since the log stays as it is.

## Main results

* `Inv.writeHead`: the write of the header commits the transaction.
* `Inv.crash`: a crash leaves the durable part.
* `Inv.step`: one step keeps the invariant.
-/

namespace OsLabs.Xv6Log

variable {Tid : Type} [DecidableEq Tid] [Fintype Tid] {L : Layout} {base : Disk}
  {s s' : State Tid} {l : Ledger Tid BlockNo Block}

/-! ### The commit -/

omit [DecidableEq Tid] [Fintype Tid] in
/-- No block of the log is pinned. -/
theorem Reads.pins_log {tail : ℕ} (h : Reads L base s l tail) {b : BlockNo}
    (hb : L.InLog b) : s.pins b = 0 := by
  rw [h.pins, if_neg fun hmem => h.ok.home b (List.mem_of_mem_drop hmem) hb]

/-- A turn of `write_log` writes one block of the log, which no recovery looks at as long as
the header on the disk is empty. -/
theorem Inv.writeLog (h : Inv L base s l) {tail : ℕ} {b : BlockNo}
    (hphase : s.phase = .writeLog tail) (hb : s.lh[tail]? = some b) :
    Inv L base { s.writeLogTurn L tail b with phase := .writeLog (tail + 1) } l := by
  have hp := h.phase
  rw [hphase] at hp
  obtain ⟨hreads, hhead, hquiet, -, hlogged⟩ := hp
  obtain ⟨hlt, hget⟩ := List.getElem?_eq_some_iff.1 hb
  have hmem : b ∈ s.lh := List.mem_of_getElem? hb
  have hlog : L.InLog (L.logBlock tail) := hreads.ok.logBlock_inLog hlt
  have hstart : L.start ≠ L.logBlock tail :=
    (L.logBlock_ne_start (hreads.ok.lt_logsize hlt)).symm
  have hdisk := s.disk_copyBlock (L.logBlock tail) b
  have hview := s.view_copyBlock (L.logBlock tail) b
  have hhome : ∀ a, ¬L.InLog a → a ≠ L.logBlock tail := fun a ha heq => ha (heq ▸ hlog)
  have hhead' : readHead ((s.copyBlock (L.logBlock tail) b).disk L.start) = some [] := by
    rw [hdisk, Function.update_of_ne hstart]
    exact hhead
  exact
    { durable := h.durable
      closed := h.closed
      opens := h.opens
      count := h.count
      clean := fun a ha => by
        change (s.copyBlock (L.logBlock tail) b).view a = (s.copyBlock (L.logBlock tail) b).disk a
        rw [hview, hdisk]
        by_cases heq : a = L.logBlock tail
        · rw [heq, Function.update_self, Function.update_self]
        · rw [Function.update_of_ne heq, Function.update_of_ne heq]
          exact h.clean a ha
      header := ⟨[], hhead', LhOk.nil L⟩
      recovered := fun a ha => by
        change Xv6Log.recovered L (s.copyBlock (L.logBlock tail) b).disk a = _
        have hrec := h.recovered a ha
        rw [recovered_of_nil hhead] at hrec
        rw [recovered_of_nil hhead', hdisk, Function.update_of_ne (hhome a ha), hrec]
      phase := by
        refine ⟨⟨hreads.ok, hreads.pins, fun a ha => ?_⟩, hhead',
          ⟨hquiet.outstanding, hquiet.committing⟩, hlt, fun i hi a ha => ?_⟩
        · change (s.copyBlock (L.logBlock tail) b).view a = _
          rw [hview, Function.update_of_ne (hhome a ha)]
          exact hreads.view a ha
        · change (s.copyBlock (L.logBlock tail) b).disk (L.logBlock i) =
            (s.copyBlock (L.logBlock tail) b).view a
          have hamem : a ∈ s.lh := List.mem_of_getElem? ha
          rw [hdisk, hview, Function.update_of_ne (hhome a (hreads.ok.home a hamem))]
          rcases Nat.lt_succ_iff_lt_or_eq.1 hi with hi | rfl
          · have hne : L.logBlock i ≠ L.logBlock tail := fun heq =>
              hi.ne (L.logBlock_inj (hreads.ok.lt_logsize (by omega))
                (hreads.ok.lt_logsize hlt) heq)
            rw [Function.update_of_ne hne]
            exact hlogged i hi a ha
          · rw [Function.update_self]
            rw [Option.some.inj (hb.symm.trans ha)] }

/-- **The write of the header commits the transaction.** -/
theorem Inv.writeHead (h : Inv L base s l) (hphase : s.phase = .writeLog s.lh.length) :
    Inv L base { s.writeHeader L with phase := .install false 0 } (l.act .commit) := by
  have hp := h.phase
  rw [hphase] at hp
  obtain ⟨hreads, hhead, hquiet, -, hlogged⟩ := hp
  have hdisk := s.disk_writeHeader L
  have hview := s.view_writeHeader L
  have hhome : ∀ a, ¬L.InLog a → a ≠ L.start := fun a ha heq => ha (heq ▸ L.start_inLog)
  have hhead' : readHead ((s.writeHeader L).disk L.start) = some s.lh := by
    rw [hdisk, Function.update_self, readHead_writeHead _ hreads.ok.length_le]
  exact
    { durable := List.prefix_rfl
      closed := h.closed_history hquiet.outstanding
      opens := h.opens
      count := h.count
      clean := fun a ha => by
        change (s.writeHeader L).view a = (s.writeHeader L).disk a
        rw [hview, hdisk]
        by_cases heq : a = L.start
        · rw [heq, Function.update_self, Function.update_self]
        · rw [Function.update_of_ne heq, Function.update_of_ne heq]
          exact h.clean a ha
      header := ⟨s.lh, hhead', hreads.ok⟩
      recovered := fun a ha => by
        change Xv6Log.recovered L (s.writeHeader L).disk a = replay base l.history a
        rw [hdisk, recovered_writeHead _ _ hreads.ok ha, ← hreads.view a ha]
        by_cases hmem : a ∈ s.lh
        · obtain ⟨i, hi, rfl⟩ := List.getElem_of_mem hmem
          have hget := List.getElem?_eq_getElem hi
          rw [redo_of_mem _ (by rw [entries_fst]; exact hreads.ok.nodup) (mem_entries s.disk hget)]
          exact hlogged i hi _ hget
        · rw [redo_of_notMem _ (by rwa [entries_fst])]
          exact (h.clean a (by rw [hreads.pins, List.drop_zero, if_neg hmem])).symm
      phase := by
        refine ⟨⟨hreads.ok, hreads.pins, fun a ha => ?_⟩,
          ⟨hhead', hreads.ok, Nat.zero_le _, fun i hi => absurd hi (Nat.not_lt_zero i)⟩,
          ⟨hquiet.outstanding, hquiet.committing⟩, rfl⟩
        change (s.writeHeader L).view a = _
        rw [hview, Function.update_of_ne (hhome a ha)]
        exact hreads.view a ha }

/-- A commit without blocks makes the history durable without a write. -/
theorem Inv.commitNone (h : Inv L base s l) (hphase : s.phase = .writeLog 0)
    (hnil : s.lh = []) : Inv L base { s with phase := .committed } (l.act .commit) := by
  have hp := h.phase
  rw [hphase] at hp
  obtain ⟨hreads, hhead, hquiet, -⟩ := hp
  exact
    { durable := List.prefix_rfl
      closed := h.closed_history hquiet.outstanding
      opens := h.opens
      count := h.count
      clean := h.clean
      header := h.header
      recovered := fun a ha => by
        change Xv6Log.recovered L s.disk a = replay base l.history a
        rw [recovered_of_nil hhead, ← hreads.view a ha]
        exact (h.clean a (by rw [hreads.pins, hnil]; rfl)).symm
      phase := ⟨⟨hreads.ok, hreads.pins, hreads.view⟩, hhead,
        ⟨hquiet.outstanding, hquiet.committing⟩, hnil, rfl⟩ }

omit [DecidableEq Tid] [Fintype Tid] in
/-- A turn of `install_trans` writes one more block home, and those before it stay there. -/
theorem Installed.turn {d : Disk} {tail : ℕ} {b : BlockNo} (h : Installed L s tail)
    (hb : s.lh[tail]? = some b) (hs' : s'.lh = s.lh) (hd : s'.disk = d)
    (hdisk : d = Function.update s.disk b (s.disk (L.logBlock tail))) :
    Installed L s' (tail + 1) := by
  obtain ⟨hlt, hget⟩ := List.getElem?_eq_some_iff.1 hb
  have hmem : b ∈ s.lh := List.mem_of_getElem? hb
  subst hdisk
  refine ⟨?_, hs' ▸ h.ok, by rw [hs']; exact hlt, fun i hi a ha => ?_⟩
  · rw [hd, hs', Function.update_of_ne (h.ok.ne_start hmem)]
    exact h.head
  · rw [hs'] at ha
    obtain ⟨hilt, higet⟩ := List.getElem?_eq_some_iff.1 ha
    rw [hd, Function.update_of_ne (h.ok.ne_logBlock hmem hilt)]
    by_cases hab : a = b
    · subst hab
      have hii : i = tail := (h.ok.nodup.getElem_inj_iff).1 (higet.trans hget.symm)
      rw [Function.update_self, hii]
    · rw [Function.update_of_ne hab]
      rcases Nat.lt_succ_iff_lt_or_eq.1 hi with hi | rfl
      · exact h.home i hi a ha
      · exact absurd (Option.some.inj (ha.symm.trans hb)) hab

/-- A turn of `install_trans` in a commit. -/
theorem Inv.installCommit (h : Inv L base s l) {tail : ℕ} {b : BlockNo}
    (hphase : s.phase = .install false tail) (hb : s.lh[tail]? = some b) :
    Inv L base { s.installTurn L false tail b with phase := .install false (tail + 1) } l := by
  have hp := h.phase
  rw [hphase] at hp
  obtain ⟨hreads, hinst, hquiet, hhist⟩ := hp
  obtain ⟨hlt, hget⟩ := List.getElem?_eq_some_iff.1 hb
  have hmem : b ∈ s.lh := List.mem_of_getElem? hb
  have hlog : s.view (L.logBlock tail) = s.disk (L.logBlock tail) :=
    h.clean _ (hreads.pins_log (hreads.ok.logBlock_inLog hlt))
  have hdisk := s.disk_copyBlock b (L.logBlock tail)
  have hview := s.view_copyBlock b (L.logBlock tail)
  rw [hlog] at hdisk hview
  -- the block that leaves the list of pinned ones
  have hdrop : s.lh.drop tail = b :: s.lh.drop (tail + 1) := by
    rw [← hget, List.cons_getElem_drop_succ]
  have hnotin : b ∉ s.lh.drop (tail + 1) := by
    have hnodup := hreads.ok.nodup.sublist (List.drop_sublist tail s.lh)
    rw [hdrop, List.nodup_cons] at hnodup
    exact hnodup.1
  have hpins : ∀ a, Function.update s.pins b (s.pins b - 1) a =
      if a ∈ s.lh.drop (tail + 1) then 1 else 0 := fun a => by
    by_cases hab : a = b
    · subst hab
      rw [Function.update_self, hreads.pins, hdrop, if_pos List.mem_cons_self, if_neg hnotin]
    · rw [Function.update_of_ne hab, hreads.pins, hdrop]
      simp only [List.mem_cons, hab, false_or]
  have hnew : Installed L
      { s.installTurn L false tail b with phase := .install false (tail + 1) } (tail + 1) :=
    hinst.turn hb rfl hdisk rfl
  exact
    { durable := h.durable
      closed := h.closed
      opens := h.opens
      count := h.count
      clean := fun a ha => by
        change (s.copyBlock b (L.logBlock tail)).view a =
          (s.copyBlock b (L.logBlock tail)).disk a
        rw [hview, hdisk]
        by_cases hab : a = b
        · rw [hab, Function.update_self, Function.update_self]
        · rw [Function.update_of_ne hab, Function.update_of_ne hab]
          have ha' : Function.update s.pins b (s.pins b - 1) a = 0 := ha
          rw [Function.update_of_ne hab] at ha'
          exact h.clean a ha'
      header := ⟨s.lh, hnew.head, hreads.ok⟩
      recovered := fun a ha => by
        change Xv6Log.recovered L (s.copyBlock b (L.logBlock tail)).disk a = _
        rw [hdisk, recovered_install hinst.head hreads.ok hb]
        exact h.recovered a ha
      phase := by
        refine ⟨⟨hreads.ok, hpins, fun a ha => ?_⟩, hnew,
          ⟨hquiet.outstanding, hquiet.committing⟩, hhist⟩
        change (s.copyBlock b (L.logBlock tail)).view a = _
        rw [hview]
        by_cases hab : a = b
        · subst hab
          rw [Function.update_self, hhist, ← h.recovered a ha, recovered_of_header hinst.head,
            redo_of_mem _ (by rw [entries_fst]; exact hreads.ok.nodup)
              (mem_entries s.disk hb)]
        · rw [Function.update_of_ne hab]
          exact hreads.view a ha }

/-- A turn of `install_trans` in a recovery. -/
theorem Inv.installRecovery (h : Inv L base s l) {tail : ℕ} {b : BlockNo}
    (hphase : s.phase = .install true tail) (hb : s.lh[tail]? = some b) :
    Inv L base { s.installTurn L true tail b with phase := .install true (tail + 1) } l := by
  have hp := h.phase
  rw [hphase] at hp
  obtain ⟨hpins, hinst, hquiet, hhist⟩ := hp
  have hlog : s.view (L.logBlock tail) = s.disk (L.logBlock tail) := h.clean _ (hpins _)
  have hdisk := s.disk_copyBlock b (L.logBlock tail)
  have hview := s.view_copyBlock b (L.logBlock tail)
  rw [hlog] at hdisk hview
  have hnew : Installed L
      { s.installTurn L true tail b with phase := .install true (tail + 1) } (tail + 1) :=
    hinst.turn hb rfl hdisk rfl
  exact
    { durable := h.durable
      closed := h.closed
      opens := h.opens
      count := h.count
      clean := fun a ha => by
        change (s.copyBlock b (L.logBlock tail)).view a =
          (s.copyBlock b (L.logBlock tail)).disk a
        rw [hview, hdisk]
        by_cases hab : a = b
        · rw [hab, Function.update_self, Function.update_self]
        · rw [Function.update_of_ne hab, Function.update_of_ne hab]
          exact h.clean a (hpins a)
      header := ⟨s.lh, hnew.head, hinst.ok⟩
      recovered := fun a ha => by
        change Xv6Log.recovered L (s.copyBlock b (L.logBlock tail)).disk a = _
        rw [hdisk, recovered_install hinst.head hinst.ok hb]
        exact h.recovered a ha
      phase := ⟨hpins, hnew, ⟨hquiet.outstanding, hquiet.committing⟩, hhist⟩ }

/-- **With every block home the log can be cleared.** -/
theorem Inv.clear (h : Inv L base s l) {r : Bool}
    (hphase : s.phase = .install r s.lh.length) :
    Inv L base { State.writeHeader { s with lh := [] } L with
      phase := if r then .running else .committed } l := by
  have hp := h.phase
  rw [hphase] at hp
  have hinst : Installed L s s.lh.length := by
    cases r with
    | false => exact hp.2.1
    | true => exact hp.2.1
  have hpins : ∀ b, s.pins b = 0 := by
    cases r with
    | false =>
      intro b
      rw [hp.1.pins, List.drop_length]
      rfl
    | true => exact hp.1
  have hhist : l.history = l.durable := by
    cases r with
    | false => exact hp.2.2.2
    | true => exact hp.2.2.2
  have hdisk := State.disk_writeHeader { s with lh := [] } L
  have hview := State.view_writeHeader { s with lh := [] } L
  have hhome : ∀ a, ¬L.InLog a → a ≠ L.start := fun a ha heq => ha (heq ▸ L.start_inLog)
  -- every block is home, so that the log adds nothing to the disk
  have hdurable : ∀ a, ¬L.InLog a → s.disk a = replay base l.durable a := fun a ha => by
    rw [← h.recovered a ha, recovered_of_header hinst.head]
    rw [redo_of_installed fun e he => ?_]
    obtain ⟨i, hi, rfl⟩ := List.mem_mapIdx.1 he
    exact hinst.home i hi _ (List.getElem?_eq_getElem hi)
  have hhead' : readHead ((State.writeHeader { s with lh := [] } L).disk L.start) = some [] := by
    rw [hdisk, Function.update_self, readHead_writeHead _ (by simp)]
  have hreads : ∀ a, ¬L.InLog a →
      (State.writeHeader { s with lh := [] } L).view a = replay base l.history a :=
    fun a ha => by
      rw [hview, Function.update_of_ne (hhome a ha), hhist, ← hdurable a ha]
      exact h.clean a (hpins a)
  exact
    { durable := h.durable
      closed := h.closed
      opens := h.opens
      count := h.count
      clean := fun a _ => by
        change (State.writeHeader { s with lh := [] } L).view a =
          (State.writeHeader { s with lh := [] } L).disk a
        rw [hview, hdisk]
        by_cases heq : a = L.start
        · rw [heq, Function.update_self, Function.update_self]
        · rw [Function.update_of_ne heq, Function.update_of_ne heq]
          exact h.clean a (hpins a)
      header := ⟨[], hhead', LhOk.nil L⟩
      recovered := fun a ha => by
        change Xv6Log.recovered L (State.writeHeader { s with lh := [] } L).disk a = _
        rw [recovered_of_nil hhead', hdisk, Function.update_of_ne (hhome a ha)]
        exact hdurable a ha
      phase := by
        cases r with
        | false =>
          exact ⟨⟨LhOk.nil L, hpins, hreads⟩, hhead',
            ⟨hp.2.2.1.outstanding, hp.2.2.1.committing⟩, rfl, hhist⟩
        | true =>
          exact ⟨⟨LhOk.nil L, hpins, hreads⟩, hhead', hp.2.2.1.committing,
            fun _ => ⟨rfl, hhist⟩⟩ }

/-- After the commit the threads that have waited for it look at the log again. -/
theorem Inv.endCommit (h : Inv L base s l) {t : Tid} (hphase : s.phase = .committed)
    (ht : s.thread t = .committing) : Inv L base (s.endCommit t) l := by
  have hp := h.phase
  rw [hphase] at hp
  obtain ⟨hreads, hhead, hquiet, hnil, hhist⟩ := hp
  have hthread : ∀ u, ((s.goto t .outside).thread u).isInside = (s.thread u).isInside :=
    fun u => by
      by_cases hu : u = t
      · rw [hu, thread_goto_self, ht]
        rfl
      · rw [thread_goto_of_ne _ hu]
  refine Inv.congr (s := { s.goto t .outside with committing := false, phase := .running })
    ?_ rfl rfl rfl rfl rfl rfl rfl fun u => wakeup_isInside u
  exact
    { durable := h.durable
      closed := h.closed
      opens := fun u => (h.opens u).trans (hthread u).symm
      count := by
        simp only [hthread]
        exact h.count
      clean := h.clean
      header := h.header
      recovered := h.recovered
      phase := ⟨⟨hreads.ok, hreads.pins, hreads.view⟩, hhead, rfl, fun _ => ⟨hnil, hhist⟩⟩ }

/-! ### The recovery -/

/-- The recovery starts with the header that is on the disk. -/
theorem Inv.readHead (h : Inv L base s l) {lh : List BlockNo} (hphase : s.phase = .boot)
    (hlh : readHead (s.view L.start) = some lh) :
    Inv L base { s.bread L.start with lh, phase := .install true 0 } l := by
  have hp := h.phase
  rw [hphase] at hp
  obtain ⟨hquiet, hpins, hhist⟩ := hp
  obtain ⟨lh', hhead, hok⟩ := h.header
  rw [h.clean _ (hpins _), hhead, Option.some.injEq] at hlh
  subst hlh
  exact
    { durable := h.durable
      closed := h.closed
      opens := h.opens
      count := h.count
      clean := fun a ha => by
        change (s.bread L.start).view a = s.disk a
        rw [State.view_bread]
        exact h.clean a ha
      header := h.header
      recovered := h.recovered
      phase := ⟨hpins, ⟨hhead, hok, Nat.zero_le _, fun i hi => absurd hi (Nat.not_lt_zero i)⟩,
        ⟨hquiet.outstanding, hquiet.committing⟩, hhist⟩ }

/-- **A crash leaves the durable part**: what the recovery will find is what the header on the
disk says. -/
theorem Inv.crash (h : Inv L base s l) : Inv L base s.crash (l.act .crash) where
  durable := List.prefix_rfl
  closed := h.closed
  opens := h.closed
  count := by simp [State.crash, Thread.isInside]
  clean _ _ := rfl
  header := h.header
  recovered := h.recovered
  phase := ⟨⟨rfl, rfl⟩, fun _ => rfl, rfl⟩

/-! ### Steps and runs -/

/-- **Every step keeps the invariant of the log**, with the ledger that the action leads to. -/
theorem Inv.step (h : Inv L base s l) {a : Action Tid BlockNo Block} (hstep : Step L s a s') :
    Inv L base s' (l.act a) := by
  cases hstep with
  | beginOp t ht hboot => exact h.beginOp ht hboot
  | store t blocks b data s' ht hb hs' => exact h.store ht hb hs'
  | endOp t blocks s' ht hs' => exact h.endOp ht hs'
  | writeLog tail b hphase hb => exact h.writeLog hphase hb
  | writeHead hphase hpos => exact h.writeHead hphase
  | commitNone hphase hnil => exact h.commitNone hphase hnil
  | install r tail b hphase hb =>
    cases r with
    | false => exact h.installCommit hphase hb
    | true => exact h.installRecovery hphase hb
  | clear r hphase => exact h.clear hphase
  | kill t ht => exact h.goto (by simp [ht, Thread.isInside])
  | endCommit t hphase ht => exact h.endCommit hphase ht
  | readHead lh hphase hlh => exact h.readHead hphase hlh
  | bread b => exact h.congr rfl (State.view_bread s b) rfl rfl rfl rfl rfl fun _ => rfl
  | evict b hpins =>
    exact h.congr rfl (s.view_evict (h.clean b hpins)) rfl rfl rfl rfl rfl fun _ => rfl
  | crash => exact h.crash

end OsLabs.Xv6Log
