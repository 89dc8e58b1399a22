import OsLabs.Xv6LogCommit

/-!
# The Log Survives Crashes

Whatever the threads do, whatever buffers are recycled, and wherever the system crashes,
in a commit or in a recovery, the file system reads as the ledger of
`OsLabs.Transactions` says: the system calls are applied in order, and a crash takes the
contents back to a point at which no system call was in progress.

## Main results

* `crash_safe`: what reads return and what a crash leaves, for every run.
* `quiet_durable`: a system call that has finished is durable once the system is quiet.
-/

namespace OsLabs.Xv6Log

section

variable {Tid : Type} [DecidableEq Tid] [Fintype Tid] {L : Layout} {d : Disk} {s : State Tid}
  {as : List (Action Tid BlockNo Block)}

/-- The invariant holds at the start from a disk whose log header is in order. -/
theorem inv_booting (hd : ∃ lh, readHead (d L.start) = some lh ∧ LhOk L lh) :
    Inv L (recovered L d) (booting d : State Tid) ⟨[], []⟩ where
  durable := List.prefix_rfl
  closed := closed_nil
  opens _ := rfl
  count := by simp [booting, Thread.isInside]
  clean _ _ := rfl
  header := hd
  recovered _ _ := rfl
  phase := ⟨⟨rfl, rfl⟩, fun _ => rfl, rfl⟩

/-- Every run keeps the invariant, with the ledger of its actions. -/
theorem inv_run (hd : ∃ lh, readHead (d L.start) = some lh ∧ LhOk L lh)
    (h : Runs (Step L) (booting d) as s) :
    Inv L (recovered L d) s (Ledger.ofActions as) := by
  refine h.invariant_labels
    (P := fun as s => Inv L (recovered L d) s (Ledger.ofActions as))
    (inv_booting hd) fun as t a u ht hstep => ?_
  rw [Ledger.ofActions_append_singleton]
  exact ht.step hstep

/-- **The log is crash-safe.** From a disk whose log header is in order, and whatever the
threads do, a read of a block outside of the log returns what the history of the system
calls leaves there, in their order, where each crash took the history back to its durable
part. That part is a part of the history, and no system call is cut by its end; a recovery
from the disk as it is leaves just it. -/
theorem crash_safe (hd : ∃ lh, readHead (d L.start) = some lh ∧ LhOk L lh)
    (h : Runs (Step L) (booting d) as s) :
    (∀ b, ¬L.InLog b → s.phase.recovering = false →
      s.view b = replay (recovered L d) (Ledger.ofActions as).history b) ∧
    (∀ b, ¬L.InLog b →
      recovered L s.disk b = replay (recovered L d) (Ledger.ofActions as).durable b) ∧
    (Ledger.ofActions as).durable <+: (Ledger.ofActions as).history ∧
    Closed (Ledger.ofActions as).durable := by
  have hinv := inv_run hd h
  refine ⟨fun b hb hboot => ?_, hinv.recovered, hinv.durable, hinv.closed⟩
  have hphase := hinv.phase
  cases hp : s.phase with
  | boot => simp [hp, Phase.recovering] at hboot
  | running =>
    rw [hp] at hphase
    exact hphase.1.view b hb
  | writeLog tail =>
    rw [hp] at hphase
    exact hphase.1.view b hb
  | install r tail =>
    rw [hp] at hphase
    cases r with
    | false => exact hphase.1.view b hb
    | true => simp [hp, Phase.recovering] at hboot
  | committed =>
    rw [hp] at hphase
    exact hphase.1.view b hb

/-- One call is committed, and the next one is cut off by a crash after its first write. -/
theorem crash_safe_cut : ∃ (as : List (Action (Fin 64) BlockNo Block)) (s : State (Fin 64)),
    Runs (Step mkfs) (booting fun _ _ => 0) as s ∧
    (Ledger.ofActions as).durable = [.begin 0, .store 0 40 fun _ => 7, .finish 0] ∧
    recovered mkfs s.disk 40 = (fun _ => 7) ∧ recovered mkfs s.disk 41 = (fun _ => 0) ∧
    ∀ b, ¬mkfs.InLog b → recovered mkfs s.disk b =
      replay (recovered mkfs fun _ _ => 0) (Ledger.ofActions as).durable b := by
  have hnil : Runs (Step mkfs) (booting fun _ _ => 0 : State (Fin 64)) [] _ := .nil
  have hrun := hnil.snoc (.readHead [] rfl readHead_zero) |>.snoc (.clear true rfl)
    |>.snoc (.beginOp 0 (.inl rfl) rfl)
    |>.snoc (.store 0 [] 40 (fun _ => 7) _ rfl (by decide) rfl) |>.snoc (.endOp 0 [40] _ rfl rfl)
    |>.snoc (.writeLog 0 40 rfl rfl) |>.snoc (.writeHead rfl (by decide))
    |>.snoc (.install false 0 40 rfl rfl) |>.snoc (.clear false rfl)
    |>.snoc (.endCommit 0 rfl rfl) |>.snoc (.beginOp 1 (.inl rfl) rfl)
    |>.snoc (.store 1 [] 41 (fun _ => 8) _ rfl (by decide) rfl) |>.snoc .crash
  have hsafe := (crash_safe ⟨[], readHead_zero, LhOk.nil mkfs⟩ hrun).2.1
  exact ⟨_, _, hrun, rfl, hsafe 40 (by decide), hsafe 41 (by decide), hsafe⟩

/-- **A finished system call is durable once the system is quiet.** When no system call is
in progress and no commit or recovery is under way, the whole history is durable, every
block is on the disk as it reads, the log on the disk is empty, and no buffer is pinned. -/
theorem quiet_durable (hd : ∃ lh, readHead (d L.start) = some lh ∧ LhOk L lh)
    (h : Runs (Step L) (booting d) as s) (hphase : s.phase = .running)
    (hout : s.outstanding = 0) :
    (Ledger.ofActions as).durable = (Ledger.ofActions as).history ∧
    (∀ b, ¬L.InLog b →
      s.disk b = replay (recovered L d) (Ledger.ofActions as).history b) ∧
    readHead (s.disk L.start) = some [] ∧ ∀ b, s.pins b = 0 := by
  have hinv := inv_run hd h
  have hp := hinv.phase
  rw [hphase] at hp
  obtain ⟨hreads, hhead, -, hquiet⟩ := hp
  obtain ⟨hnil, hhist⟩ := hquiet hout
  have hpins : ∀ b, s.pins b = 0 := fun b => by
    rw [hreads.pins, hnil]
    rfl
  exact ⟨hhist.symm, fun b hb => (hinv.clean b (hpins b)).symm.trans (hreads.view b hb),
    hhead, hpins⟩

/-- The system after the boot from an empty disk and one call with its commit. -/
theorem quiet_durable_commit :
    ∃ (as : List (Action (Fin 64) BlockNo Block)) (s : State (Fin 64)),
      Runs (Step mkfs) (booting fun _ _ => 0) as s ∧
      (Ledger.ofActions as).history = [.begin 0, .store 0 40 fun _ => 7, .finish 0] ∧
      s.disk 40 = (fun _ => 7) ∧
      ((Ledger.ofActions as).durable = (Ledger.ofActions as).history ∧
        (∀ b, ¬mkfs.InLog b → s.disk b =
          replay (recovered mkfs fun _ _ => 0) (Ledger.ofActions as).history b) ∧
        readHead (s.disk mkfs.start) = some [] ∧ ∀ b, s.pins b = 0) := by
  have hnil : Runs (Step mkfs) (booting fun _ _ => 0 : State (Fin 64)) [] _ := .nil
  have hrun := hnil.snoc (.readHead [] rfl readHead_zero) |>.snoc (.clear true rfl)
    |>.snoc (.beginOp 0 (.inl rfl) rfl)
    |>.snoc (.store 0 [] 40 (fun _ => 7) _ rfl (by decide) rfl) |>.snoc (.endOp 0 [40] _ rfl rfl)
    |>.snoc (.writeLog 0 40 rfl rfl) |>.snoc (.writeHead rfl (by decide))
    |>.snoc (.install false 0 40 rfl rfl) |>.snoc (.clear false rfl)
    |>.snoc (.endCommit 0 rfl rfl)
  have hquiet := quiet_durable ⟨[], readHead_zero, LhOk.nil mkfs⟩ hrun rfl rfl
  exact ⟨_, _, hrun, rfl, hquiet.2.1 40 (by decide), hquiet⟩

end

end OsLabs.Xv6Log
