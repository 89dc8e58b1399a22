import OsLabs.XmodemTransfer

/-!
# Progress Reports of the Two Sides

`Progress::Packet(n)` says that packet `n` was transmitted or received. `write_packet`
calls the callback before it increases the packet number, `read_packet` after that. So the
transmitter reports 1, 2, 3 and so on, and the receiver, of the same packets, 2, 3, 4.

Conventions: the numbers wrap around at 256. The link is lossless, the reads of the source
may be short or be interrupted, and the steps of the two sides are interleaved in any way.

## Main results

* `numbersFrom_eq`: the numbers of packets in a row.
* `progress_reports`: what the two sides report in every transfer.
* `same_progress_iff`: they report the same only when there is nothing to transfer.
-/

namespace OsLabs.Xmodem

open Session

/-- The numbers of the first `k` packets: 1, 2, 3 and so on, modulo 256. -/
def firstNumbers (k : ℕ) : List UInt8 := (List.range k).map fun j => UInt8.ofNat (j + 1)

/-- **The property**: when a transfer has come to its end, both sides have reported the
number of each packet. -/
def SameProgress (data : Reader) : Prop :=
  ∀ m c, Path (network lossless).stepLeft (network lossless).stepRight m (start data ()) c →
    Stuck (network lossless).stepLeft (network lossless).stepRight c →
    packetNumbers c.leftOut = firstNumbers ((data.pending.length + 127) / 128) ∧
      packetNumbers c.rightOut = firstNumbers ((data.pending.length + 127) / 128)

/-- The numbers from `n` on, modulo 256. -/
theorem numbersFrom_eq (n : UInt8) (k : ℕ) :
    numbersFrom n k = (List.range k).map fun j => n + UInt8.ofNat j := by
  induction k generalizing n with
  | zero => rfl
  | succ k ih =>
      rw [numbersFrom, ih, List.range_succ_eq_map, List.map_cons, List.map_map]
      congr 1
      · exact (UInt8.add_zero n).symm
      · refine List.map_congr_left fun j _ => ?_
        rw [Function.comp_apply, Nat.succ_eq_add_one, UInt8.ofNat_add, UInt8.add_assoc,
          UInt8.add_comm 1]
        rfl

/-- The numbers of the first packets start at 1. -/
theorem firstNumbers_eq (k : ℕ) : firstNumbers k = numbersFrom 1 k := by
  rw [firstNumbers, numbersFrom_eq]
  refine List.map_congr_left fun j _ => ?_
  rw [UInt8.ofNat_add, UInt8.add_comm]
  rfl

/-- **What the two sides report.** Every interleaving ends, there is one, and at the end the
transmitter has reported the numbers from 1 on and the receiver those from 2 on, one for
each packet. -/
theorem progress_reports (data : List UInt8) {script : List ReadEvent}
    (hscript : Reader.OnlyInterrupted ⟨data, script⟩) :
    ∃ bound t, (network lossless).Reach (start ⟨data, script⟩ ()) t ∧
      Stuck (network lossless).stepLeft (network lossless).stepRight t ∧
      packetNumbers t.leftOut = numbersFrom 1 ((data.length + 127) / 128) ∧
      packetNumbers t.rightOut = numbersFrom 2 ((data.length + 127) / 128) ∧
      ∀ m c, Path (network lossless).stepLeft (network lossless).stepRight m
          (start ⟨data, script⟩ ()) c →
        m ≤ bound ∧ (Stuck (network lossless).stepLeft (network lossless).stepRight c → c = t) := by
  obtain ⟨ds, ok, hdelivers⟩ := Delivers.total (fun _ _ => False) (packets data) 1 0 (Nat.zero_le 9)
  have hall : ds.length = (data.length + 127) / 128 := by
    cases ok with
    | false =>
        obtain ⟨j, -, hfaulty⟩ := hdelivers.exhausted fun b hb => absurd hb (Nat.not_lt_zero b)
        exact (hfaulty 0 (by omega)).elim
    | true =>
        obtain ⟨rfl, -⟩ := hdelivers.complete (Nat.zero_le 9)
        exact length_packets data
  obtain ⟨link', lo', ro', -, hleft, hright, hrun⟩ := hdelivers.run_reports carries_lossless
    (sends_turn hscript 1 0) (Nat.zero_le 9) List.length_replicate trivial 0 _ _
  rw [hall] at hleft hright
  have hreach : (network lossless).Reach (start ⟨data, script⟩ ()) _ :=
    (reach_started hscript ()).trans hrun
  obtain ⟨bound, hbound⟩ := Net.settles hreach ⟨rfl, rfl⟩
  refine ⟨bound, _, hreach, ⟨rfl, rfl⟩, hleft, hright, fun m c hc => ?_⟩
  obtain ⟨hm, -, hend⟩ := hbound m c hc
  exact ⟨hm, hend⟩

/-- With a packet to transfer the reports differ: the first number is 2 on one side and 1 on
the other. -/
theorem SameProgress.eq_nil {data : List UInt8} {script : List ReadEvent}
    (h : SameProgress ⟨data, script⟩) (hscript : Reader.OnlyInterrupted ⟨data, script⟩) :
    data = [] := by
  obtain ⟨bound, t, ⟨k, hpath⟩, hstuck, -, hright, -⟩ := progress_reports data hscript
  have hsame := (h k t hpath hstuck).2
  rw [hright, firstNumbers_eq] at hsame
  cases hcount : (data.length + 127) / 128 with
  | zero => exact List.length_eq_zero_iff.mp (by omega)
  | succ k =>
      simp only [hcount, numbersFrom, List.cons.injEq] at hsame
      exact absurd hsame.1 (by decide)

/-- **When both sides report the same progress.** Whatever the source's reads return, every
interleaving ends, and the two sides have then reported the number of each packet if and
only if the data is empty. -/
theorem same_progress_iff (data : List UInt8) {script : List ReadEvent}
    (hscript : Reader.OnlyInterrupted ⟨data, script⟩) :
    (∃ bound, ∀ m c, Path (network lossless).stepLeft (network lossless).stepRight m
        (start ⟨data, script⟩ ()) c → m ≤ bound) ∧
      (SameProgress ⟨data, script⟩ ↔ data = []) := by
  obtain ⟨bound, t, -, -, hleft, hright, hbound⟩ := progress_reports data hscript
  refine ⟨⟨bound, fun m c hc => (hbound m c hc).1⟩, fun h => h.eq_nil hscript, ?_⟩
  rintro rfl m c hc hend
  obtain rfl := (hbound m c hc).2 hend
  constructor
  · simp [hleft, numbersFrom, firstNumbers]
  · simp [hright, numbersFrom, firstNumbers]

/-- A transfer without data, whose source is interrupted once. -/
theorem same_progress_empty :
    SameProgress ⟨[], [.short 0, .error ⟨.interrupted, "interrupted"⟩]⟩ :=
  (same_progress_iff [] (onlyInterrupted_once [])).2.mpr rfl

/-- **The defect**: of the single packet of three bytes the transmitter reports number 1 and
the receiver number 2. -/
theorem different_progress_three_bytes :
    ¬ SameProgress ⟨[1, 2, 3], [.short 0, .error ⟨.interrupted, "interrupted"⟩]⟩ := by
  intro h
  cases h.eq_nil (onlyInterrupted_once [1, 2, 3])

end OsLabs.Xmodem
