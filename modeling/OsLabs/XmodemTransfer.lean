import OsLabs.XmodemLink
import OsLabs.XmodemReceiver

/-!
# XMODEM Transfers from End to End

The transmitter and the receiver over a link, in every interleaving of their steps. Both
sides count the attempts at a packet on their own; that the counts agree is what makes
them succeed together or give up together.

## Main results

* `Delivers.run_reports`: one interleaving, packet by packet, over any link that `Carries`.
* `transfer_lossless`: over a lossless link every interleaving ends with the whole data in
  the sink.
* `transfer_noisy`: over a noisy link the sink holds whole packets of the data at every
  point, and both sides succeed unless some packet is damaged ten times in a row; then both
  fail.
-/

namespace OsLabs.Xmodem

open Session

/-! ### Deliveries -/

/-- What becomes of the packets `ps`, the first of which is packet `i` at its attempt `a`:
`ds` are delivered, and `ok` says whether these are all of them. A packet whose attempts
`0` to `9` are damaged ends the transfer. -/
inductive Delivers (faulty : ℕ → ℕ → Prop) :
    ℕ → ℕ → List (List UInt8) → List (List UInt8) → Bool → Prop
  | done (i a : ℕ) : Delivers faulty i a [] [] true
  | good {i a : ℕ} {packet : List UInt8} {ps ds : List (List UInt8)} {ok : Bool} :
      ¬ faulty i a → Delivers faulty (i + 1) 0 ps ds ok →
      Delivers faulty i a (packet :: ps) (packet :: ds) ok
  | bad {i a : ℕ} {packet : List UInt8} {ps ds : List (List UInt8)} {ok : Bool} :
      faulty i a → a < 9 → Delivers faulty i (a + 1) (packet :: ps) ds ok →
      Delivers faulty i a (packet :: ps) ds ok
  | giveUp {i : ℕ} {packet : List UInt8} {ps : List (List UInt8)} :
      faulty i 9 → Delivers faulty i 9 (packet :: ps) [] false

section

variable {faulty : ℕ → ℕ → Prop} {i a : ℕ} {ps ds : List (List UInt8)}

/-- Whichever attempts are faulty, the packets are delivered or given up. -/
theorem Delivers.total (faulty : ℕ → ℕ → Prop) (ps : List (List UInt8)) (i : ℕ) :
    ∀ a, a ≤ 9 → ∃ ds ok, Delivers faulty i a ps ds ok := by
  induction ps generalizing i with
  | nil => exact fun a _ => ⟨_, _, Delivers.done i a⟩
  | cons packet ps ih =>
      intro a ha
      -- the attempts at one packet, backwards from the last one
      induction hleft : 9 - a generalizing a with
      | zero =>
          obtain rfl : a = 9 := by omega
          by_cases hfaulty : faulty i 9
          · exact ⟨_, _, Delivers.giveUp hfaulty⟩
          · obtain ⟨ds, ok, hrest⟩ := ih (i + 1) 0 (Nat.zero_le 9)
            exact ⟨_, _, Delivers.good hfaulty hrest⟩
      | succ left ihleft =>
          by_cases hfaulty : faulty i a
          · obtain ⟨ds, ok, hrest⟩ := ihleft (a + 1) (by omega) (by omega)
            exact ⟨_, _, Delivers.bad hfaulty (by omega) hrest⟩
          · obtain ⟨ds, ok, hrest⟩ := ih (i + 1) 0 (Nat.zero_le 9)
            exact ⟨_, _, Delivers.good hfaulty hrest⟩

/-- No packet is lost, duplicated or altered. -/
theorem Delivers.isPrefix {ok : Bool} (h : Delivers faulty i a ps ds ok) : ds <+: ps := by
  induction h with
  | done => exact List.prefix_rfl
  | good _ _ ih => exact List.cons_prefix_cons.mpr ⟨rfl, ih⟩
  | bad _ _ _ ih => exact ih
  | giveUp => exact List.nil_prefix

/-- All packets are delivered only if each of them is intact at one of its attempts. -/
theorem Delivers.complete (h : Delivers faulty i a ps ds true) (ha : a ≤ 9) :
    ds = ps ∧ ∀ j < ps.length, ∃ b < 10, ¬ faulty (i + j) b := by
  generalize hok : true = ok at h
  induction h with
  | done => exact ⟨rfl, fun j hj => absurd hj (Nat.not_lt_zero j)⟩
  | @good i a packet ps ds ok hintact _ ih =>
      obtain ⟨rfl, hrest⟩ := ih (Nat.zero_le 9) hok
      refine ⟨rfl, fun j hj => ?_⟩
      cases j with
      | zero => exact ⟨a, Nat.lt_succ_of_le ha, hintact⟩
      | succ j =>
          rw [Nat.add_comm j 1, ← Nat.add_assoc]
          exact hrest j (Nat.lt_of_succ_lt_succ hj)
  | bad _ hlt _ ih => exact ih hlt hok
  | giveUp => cases hok

/-- Not all packets are delivered only if one of them is damaged at every attempt. -/
theorem Delivers.exhausted (h : Delivers faulty i a ps ds false) (ha : ∀ b < a, faulty i b) :
    ∃ j < ps.length, ∀ b < 10, faulty (i + j) b := by
  generalize hok : false = ok at h
  induction h with
  | done => cases hok
  | good _ _ ih =>
      obtain ⟨j, hj, hfaulty⟩ := ih (fun b hb => absurd hb (Nat.not_lt_zero b)) hok
      refine ⟨j + 1, Nat.succ_lt_succ hj, fun b hb => ?_⟩
      rw [Nat.add_comm j 1, ← Nat.add_assoc]
      exact hfaulty b hb
  | @bad i a packet ps ds ok hfaulty _ _ ih =>
      refine ih (fun b hb => ?_) hok
      rcases Nat.lt_or_eq_of_le (Nat.le_of_lt_succ hb) with hlt | rfl
      · exact ha b hlt
      · exact hfaulty
  | @giveUp i packet ps hfaulty =>
      refine ⟨0, Nat.zero_lt_succ _, fun b hb => ?_⟩
      rcases Nat.lt_or_eq_of_le (Nat.le_of_lt_succ hb) with hlt | rfl
      · exact ha b hlt
      · exact hfaulty

end

/-! ### Rounds -/

section

variable {τ : Type} {send : τ → UInt8 → UInt8 × τ} {faulty : ℕ → ℕ → Prop}
  {ready : UInt8 → ℕ → ℕ → τ → Prop} {link : τ} {n : UInt8} {i a : ℕ}
  {packet buf : List UInt8} {r : Reader}

/-- **The start of a transfer**: the receiver asks for the first packet, and the transmitter gets
to sending it. -/
theorem reach_started (hr : r.OnlyInterrupted) (link : τ) :
    (network send).Reach (start r link)
      ⟨transmitTurn ⟨⟨1, true⟩, r, 0⟩, receiving 1 0 (List.replicate 128 0) 0, [], [], link,
        [.progress .waiting, .progress .started], [.progress .started]⟩ := by
  have hasked : (network send).Reach (start r link) _ :=
    Net.exchange (Prog.Steps.refl _) rfl (receiveTurn_start List.length_replicate 1 0) [] []
  exact hasked.trans (Net.exchange (transmitTurn_start hr 1 0) rfl (Prog.Steps.refl _) _ _)

/-- **A packet that arrives intact** is acknowledged, and both parties come to the next one. -/
theorem reach_intact (hcarries : Carries send faulty ready) (hready : ready n i a link)
    (hfaulty : ¬ faulty i a) (hpacket : packet.length = 128) (hbuf : buf.length = 128)
    (ha : a ≤ 9) (r : Reader) (written received : ℕ) (lo ro : List Event) :
    ∃ link', ready (n + 1) (i + 1) 0 link' ∧
      (network send).Reach
        ⟨sending n a packet r written, receiving n a buf received, [], [], link, lo, ro⟩
        ⟨transmitTurn ⟨⟨n + 1, true⟩, r, written⟩, receiving (n + 1) 0 packet (received + 128),
          [], [], link', lo ++ [.progress (.packet n)],
          ro ++ [.progress (.packet (n + 1)), .sink packet]⟩ := by
  obtain ⟨link', hcarry, hready'⟩ := hcarries.intact hready hfaulty hpacket
  obtain ⟨k, hwait⟩ := (sending_stalls hpacket ha n).waits (afterSend r written)
  have hround := Net.round hwait (sending_ack hpacket ha n r written) hcarry
    (receiving_good hbuf hpacket ha n received) lo ro
  exact ⟨link', hready', hround.trans (Net.Reach.left rfl (Net.Reach.right rfl
    (Net.Reach.refl _)))⟩

/-- **A packet that arrives damaged** is sent again. -/
theorem reach_damaged (hcarries : Carries send faulty ready) (hready : ready n i a link)
    (hfaulty : faulty i a) (hpacket : packet.length = 128) (hbuf : buf.length = 128)
    (ha : a < 9) (r : Reader) (written received : ℕ) (lo ro : List Event) :
    ∃ link', ready n i (a + 1) link' ∧
      (network send).Reach
        ⟨sending n a packet r written, receiving n a buf received, [], [], link, lo, ro⟩
        ⟨sending n (a + 1) packet r written, receiving n (a + 1) buf received, [], [], link', lo,
          ro⟩ := by
  obtain ⟨payload, c, link', hcarry, hpayload, hc, hready'⟩ :=
    hcarries.damaged hready hfaulty hpacket
  obtain ⟨k, hwait⟩ := (sending_stalls hpacket (Nat.le_of_lt ha) n).waits (afterSend r written)
  have hround := Net.round hwait (sending_nak hpacket ha n r written) hcarry
    (receiving_bad hbuf hpayload hc ha n received) lo ro
  rw [List.append_nil, List.append_nil] at hround
  exact ⟨link', hready', hround⟩

/-- **A packet that arrives damaged for the tenth time** ends the transfer on both
sides. -/
theorem reach_tenth (hcarries : Carries send faulty ready) (hready : ready n i 9 link)
    (hfaulty : faulty i 9) (hpacket : packet.length = 128) (hbuf : buf.length = 128)
    (r : Reader) (written received : ℕ) (lo ro : List Event) :
    ∃ link', (network send).Reach
        ⟨sending n 9 packet r written, receiving n 9 buf received, [], [], link, lo, ro⟩
        ⟨.ret (.inr (.error ⟨.brokenPipe, "bad transmit"⟩)),
          .ret (.inr (.error ⟨.brokenPipe, "bad receive"⟩)), [], [], link', lo, ro⟩ := by
  obtain ⟨payload, c, link', hcarry, hpayload, hc, -⟩ := hcarries.damaged hready hfaulty hpacket
  obtain ⟨k, hwait⟩ := (sending_stalls hpacket (Nat.le_refl 9) n).waits (afterSend r written)
  have hround := Net.round hwait (sending_tenth hpacket n r written) hcarry
    (receiving_tenth hbuf hpayload hc n received) lo ro
  rw [List.append_nil, List.append_nil] at hround
  exact ⟨link', hround⟩

/-- **The end of a transfer**: both `EOT`s are exchanged, and both parties return. -/
theorem reach_end (hcarries : Carries send faulty ready) (hready : ready n i a link)
    (hbuf : buf.length = 128) (ha : a ≤ 9) (total received : ℕ) (lo ro : List Event) :
    (network send).Reach
      ⟨(writePacket [] ⟨n, true⟩).bind (afterEnd total), receiving n a buf received, [], [], link,
        lo, ro⟩
      ⟨.ret (.inr (.ok total)), .ret (.inr (.ok received)), [], [], link, lo, ro⟩ := by
  have hcarry : (network send).carry link [eot] = ([eot], link) := by
    simp only [Net.carry, network, hcarries.eot hready]
  -- the transmitter waits after each `EOT`, the receiver after the first one
  obtain ⟨hfirst, hsecond⟩ := writePacket_end_stalls n
  obtain ⟨k₁, hk₁⟩ := hfirst.waits (afterEnd total)
  obtain ⟨k₂, hk₂⟩ := hsecond.waits (afterEnd total)
  obtain ⟨k₃, hk₃⟩ := (receiving_end_stalls hbuf ha n).waits (afterReceive received)
  obtain ⟨w₁, e₁, hw₁, he₁, hnak⟩ := hk₁.cancel hk₂
  obtain ⟨w₂, e₂, hw₂, he₂, hack⟩ :=
    hk₂.cancel (Prog.Steps.bind (writePacket_end n) (afterEnd total))
  obtain ⟨w₃, e₃, hw₃, he₃, heot⟩ := hk₃.cancel (receiving_end hbuf ha n received)
  cases hw₁; cases he₁; cases hw₂; cases he₂; cases hw₃; cases he₃
  have hrun₁ := Net.exchange hk₁ hcarry hk₃ lo ro
  have hrun₂ := Net.exchange hnak hcarry heot lo ro
  have hrun₃ : (network send).Reach _ _ :=
    Net.exchange (l := link) hack rfl (Prog.Steps.refl (.ret (.inr (.ok received)))) lo ro
  simp only [List.append_nil] at hrun₁ hrun₂ hrun₃
  exact hrun₁.trans (hrun₂.trans hrun₃)

end

/-! ### Whole transfers -/

/-- What the sink has got in two stretches. -/
theorem sinks_append (e e' : List Event) : sinks (e ++ e') = sinks e ++ sinks e' :=
  List.filterMap_append

/-- The numbers of the packets reported to the callback. -/
def packetNumbers (events : List Event) : List UInt8 :=
  events.filterMap fun
    | .progress (.packet n) => some n
    | _ => none

/-- What the callback has reported in two stretches. -/
theorem packetNumbers_append (e e' : List Event) :
    packetNumbers (e ++ e') = packetNumbers e ++ packetNumbers e' :=
  List.filterMap_append

/-- The numbers of `k` packets in a row, the first of which is `n`. -/
def numbersFrom (n : UInt8) : ℕ → List UInt8
  | 0 => []
  | k + 1 => n :: numbersFrom (n + 1) k

/-- What a side returns. -/
def ending (ok : Bool) (count : ℕ) (message : String) : Except IoError ℕ :=
  if ok then .ok count else .error ⟨.brokenPipe, message⟩

section

variable {τ : Type} {send : τ → UInt8 → UInt8 × τ} {faulty : ℕ → ℕ → Prop}
  {ready : UInt8 → ℕ → ℕ → τ → Prop}

/-- **One interleaving of a transfer**: packet by packet, both sides follow the
deliveries. The transmitter reports the numbers of the packets delivered; the receiver has
then already moved on to the next one. -/
theorem Delivers.run_reports (hcarries : Carries send faulty ready) {i a : ℕ}
    {ps ds : List (List UInt8)} {ok : Bool} (h : Delivers faulty i a ps ds ok) {n : UInt8}
    {total : ℕ} {p : Talk (Transmit ⊕ Except IoError ℕ)} (hsends : Sends n a ps total p)
    (ha : a ≤ 9) {buf : List UInt8} (hbuf : buf.length = 128) {link : τ}
    (hready : ready n i a link) (received : ℕ) (lo ro : List Event) :
    ∃ link' lo' ro', sinks ro' = sinks ro ++ ds ∧
      packetNumbers lo' = packetNumbers lo ++ numbersFrom n ds.length ∧
      packetNumbers ro' = packetNumbers ro ++ numbersFrom (n + 1) ds.length ∧
      (network send).Reach ⟨p, receiving n a buf received, [], [], link, lo, ro⟩
        ⟨.ret (.inr (ending ok total "bad transmit")),
          .ret (.inr (ending ok (received + 128 * ps.length) "bad receive")), [], [], link', lo',
          ro'⟩ := by
  induction h generalizing n p buf link received lo ro with
  | done i a =>
      cases hsends with
      | finish =>
          exact ⟨link, lo, ro, (List.append_nil _).symm, (List.append_nil _).symm,
            (List.append_nil _).symm, reach_end hcarries hready hbuf ha total received lo ro⟩
  | @good i a packet ps ds ok hfaulty _ ih =>
      cases hsends with
      | @packet _ r written hpacket hr =>
          obtain ⟨link₁, hready₁, hround⟩ := reach_intact hcarries hready hfaulty hpacket hbuf ha
            r written received lo ro
          obtain ⟨link', lo', ro', hsinks, hleft, hright, hrest⟩ :=
            ih (sends_turn hr (n + 1) written) (Nat.zero_le 9) hpacket hready₁ (received + 128) _ _
          have hcount : received + 128 + 128 * (packets r.pending).length =
              received + 128 * (packet :: packets r.pending).length := by
            rw [List.length_cons]
            omega
          rw [hcount] at hrest
          refine ⟨link', lo', ro', ?_, ?_, ?_, hround.trans hrest⟩
          · rw [hsinks, sinks_append, List.append_assoc]
            rfl
          · rw [hleft, packetNumbers_append, List.append_assoc]
            rfl
          · rw [hright, packetNumbers_append, List.append_assoc]
            rfl
  | @bad i a packet ps ds ok hfaulty hlt _ ih =>
      cases hsends with
      | packet written hpacket hr =>
          obtain ⟨link₁, hready₁, hround⟩ := reach_damaged hcarries hready hfaulty hpacket hbuf hlt
            _ written received lo ro
          obtain ⟨link', lo', ro', hsinks, hleft, hright, hrest⟩ :=
            ih (Sends.packet written hpacket hr) hlt hbuf hready₁ received lo ro
          exact ⟨link', lo', ro', hsinks, hleft, hright, hround.trans hrest⟩
  | @giveUp i packet ps hfaulty =>
      cases hsends with
      | packet written hpacket hr =>
          obtain ⟨link', hround⟩ := reach_tenth hcarries hready hfaulty hpacket hbuf _ written
            received lo ro
          exact ⟨link', lo, ro, (List.append_nil _).symm, (List.append_nil _).symm,
            (List.append_nil _).symm, hround⟩

/-- **Every interleaving of a transfer** ends as the deliveries say, and at every point the
sink holds some of the delivered packets. -/
theorem Delivers.settles (hcarries : Carries send faulty ready) {link : τ}
    (hready : ready 1 1 0 link) {data : List UInt8} {script : List ReadEvent}
    (hscript : Reader.OnlyInterrupted ⟨data, script⟩) {ds : List (List UInt8)} {ok : Bool}
    (h : Delivers faulty 1 0 (packets data) ds ok) :
    ∃ bound, ∀ m c,
      Path (network send).stepLeft (network send).stepRight m (start ⟨data, script⟩ link) c →
      m ≤ bound ∧ sinks c.rightOut <+: ds ∧
        (Stuck (network send).stepLeft (network send).stepRight c →
          c.left = .ret (.inr (ending ok data.length "bad transmit")) ∧
          c.right = .ret (.inr (ending ok (128 * (packets data).length) "bad receive")) ∧
          sinks c.rightOut = ds) := by
  obtain ⟨link', lo', ro', hsinks, -, -, hrun⟩ := h.run_reports hcarries
    (sends_turn hscript 1 0) (Nat.zero_le 9) List.length_replicate hready 0 _ _
  rw [Nat.zero_add, Nat.zero_add] at hrun
  obtain ⟨bound, hbound⟩ := Net.settles ((reach_started hscript link).trans hrun) ⟨rfl, rfl⟩
  have hds : sinks ro' = ds := hsinks.trans (List.nil_append ds)
  refine ⟨bound, fun m c hc => ?_⟩
  obtain ⟨hm, hprefix, hend⟩ := hbound m c hc
  refine ⟨hm, ?_, fun hstuck => ?_⟩
  · rw [← hds]
    exact hprefix.filterMap _
  · rw [hend hstuck]
    exact ⟨rfl, rfl, hds⟩

end

/-- A transfer of `data` that has succeeded on both sides. -/
structure Completed {τ : Type} (data : List UInt8)
    (c : Config IoError UInt8 Event Transmit (Except IoError ℕ) Receive (Except IoError ℕ) τ) :
    Prop where
  transmitted : c.left = .ret (.inr (.ok data.length))
  received : c.right = .ret (.inr (.ok (128 * ((data.length + 127) / 128))))
  sink : (sinks c.rightOut).flatten =
    data ++ List.replicate (128 * ((data.length + 127) / 128) - data.length) 0

/-- The results of both parties, and the sink in terms of the packets. -/
theorem Completed.of_packets {τ : Type} {data : List UInt8}
    {c : Config IoError UInt8 Event Transmit (Except IoError ℕ) Receive (Except IoError ℕ) τ}
    (hleft : c.left = .ret (.inr (.ok data.length)))
    (hright : c.right = .ret (.inr (.ok (128 * (packets data).length))))
    (hsink : sinks c.rightOut = packets data) : Completed data c := by
  refine ⟨hleft, ?_, ?_⟩
  · rw [hright, length_packets]
  · rw [hsink, packets_flatten]

/-- A transfer that has failed on both sides. -/
structure BrokenOff {τ : Type}
    (c : Config IoError UInt8 Event Transmit (Except IoError ℕ) Receive (Except IoError ℕ) τ) :
    Prop where
  transmitter : ∃ e, c.left = .ret (.inr (.error e)) ∧ e.kind = .brokenPipe
  receiver : ∃ e, c.right = .ret (.inr (.error e)) ∧ e.kind = .brokenPipe

/-- **Transfers over a lossless link.** Whatever the source's reads return, every
interleaving of `transmit` and `receive` ends, and it ends with `Ok` on both sides and
with the data, padded with zeroes, in the sink. -/
theorem transfer_lossless (data : List UInt8) {script : List ReadEvent}
    (hscript : Reader.OnlyInterrupted ⟨data, script⟩) :
    ∃ bound, ∀ m c,
      Path (network lossless).stepLeft (network lossless).stepRight m
        (start ⟨data, script⟩ ()) c →
      m ≤ bound ∧
        (Stuck (network lossless).stepLeft (network lossless).stepRight c → Completed data c) := by
  obtain ⟨ds, ok, hdelivers⟩ := Delivers.total (fun _ _ => False) (packets data) 1 0 (Nat.zero_le 9)
  obtain ⟨bound, hbound⟩ := hdelivers.settles carries_lossless trivial hscript
  refine ⟨bound, fun m c hc => ?_⟩
  obtain ⟨hm, -, hend⟩ := hbound m c hc
  refine ⟨hm, fun hstuck => ?_⟩
  obtain ⟨hleft, hright, hsink⟩ := hend hstuck
  cases ok with
  | false =>
      obtain ⟨j, -, hfaulty⟩ := hdelivers.exhausted fun b hb => absurd hb (Nat.not_lt_zero b)
      exact (hfaulty 0 (by decide)).elim
  | true =>
      obtain ⟨rfl, -⟩ := hdelivers.complete (Nat.zero_le 9)
      exact Completed.of_packets hleft hright hsink

/-- Three bytes that the source gives in two parts arrive in one padded packet. -/
theorem transfer_lossless_three_bytes :
    ∃ bound, ∀ m c,
      Path (network lossless).stepLeft (network lossless).stepRight m
        (start ⟨[1, 2, 3], [.short 0, .error ⟨.interrupted, "interrupted"⟩]⟩ ()) c →
      m ≤ bound ∧
        (Stuck (network lossless).stepLeft (network lossless).stepRight c →
          Completed [1, 2, 3] c) :=
  transfer_lossless [1, 2, 3] (onlyInterrupted_once [1, 2, 3])

/-- One of the packets `1` to `m` is damaged in ten consecutive transmissions; a packet has
no more than these ten attempts, `0` to `9`. -/
def Exhausted (faults : ℕ → ℕ → Option Fault) (m : ℕ) : Prop :=
  ∃ i, 1 ≤ i ∧ i ≤ m ∧ ∀ a < 10, faults i a ≠ none

/-- **Transfers over a noisy link.** Every interleaving ends. At every point the sink
holds the first packets of the data, whole and unchanged. If no packet is damaged in ten
consecutive transmissions, both sides return `Ok` with the whole data in the sink;
otherwise both return `BrokenPipe`. -/
theorem transfer_noisy (faults : ℕ → ℕ → Option Fault) (data : List UInt8)
    {script : List ReadEvent} (hscript : Reader.OnlyInterrupted ⟨data, script⟩) :
    ∃ bound, ∀ m c,
      Path (network (Noise.send faults)).stepLeft (network (Noise.send faults)).stepRight m
        (start ⟨data, script⟩ Noise.initial) c →
      m ≤ bound ∧ sinks c.rightOut <+: packets data ∧
        (Stuck (network (Noise.send faults)).stepLeft (network (Noise.send faults)).stepRight c →
          (Exhausted faults ((data.length + 127) / 128) → BrokenOff c) ∧
          (¬ Exhausted faults ((data.length + 127) / 128) → Completed data c)) := by
  obtain ⟨ds, ok, hdelivers⟩ :=
    Delivers.total (fun i a => faults i a ≠ none) (packets data) 1 0 (Nat.zero_le 9)
  obtain ⟨bound, hbound⟩ := hdelivers.settles Noise.carries Noise.ready_initial hscript
  refine ⟨bound, fun m c hc => ?_⟩
  obtain ⟨hm, hprefix, hend⟩ := hbound m c hc
  refine ⟨hm, hprefix.trans hdelivers.isPrefix, fun hstuck => ?_⟩
  obtain ⟨hleft, hright, hsink⟩ := hend hstuck
  cases ok with
  | false =>
      obtain ⟨j, hj, hfaulty⟩ := hdelivers.exhausted fun b hb => absurd hb (Nat.not_lt_zero b)
      rw [length_packets] at hj
      have hexhausted : Exhausted faults ((data.length + 127) / 128) :=
        ⟨1 + j, by omega, by omega, hfaulty⟩
      exact ⟨fun _ => ⟨⟨_, hleft, rfl⟩, ⟨_, hright, rfl⟩⟩, fun hno => absurd hexhausted hno⟩
  | true =>
      obtain ⟨rfl, hintact⟩ := hdelivers.complete (Nat.zero_le 9)
      refine ⟨?_, fun _ => Completed.of_packets hleft hright hsink⟩
      rintro ⟨i, hi, him, hfaulty⟩
      obtain ⟨b, hb, hne⟩ := hintact (i - 1) (by rw [length_packets]; omega)
      rw [Nat.add_sub_cancel' hi] at hne
      exact absurd (hfaulty b hb) hne

/-- The first attempt at the first packet changes its second byte. -/
def onceDamaged (i a : ℕ) : Option Fault :=
  if i = 1 ∧ a = 0 then some ⟨1, 7, by decide⟩ else none

/-- Three bytes, read in two parts and damaged once. -/
theorem transfer_noisy_three_bytes :
    ∃ bound, ∀ m c,
      Path (network (Noise.send onceDamaged)).stepLeft (network (Noise.send onceDamaged)).stepRight
        m (start ⟨[1, 2, 3], [.short 0, .error ⟨.interrupted, "interrupted"⟩]⟩ Noise.initial) c →
      m ≤ bound ∧ sinks c.rightOut <+: packets [1, 2, 3] ∧
        (Stuck (network (Noise.send onceDamaged)).stepLeft
            (network (Noise.send onceDamaged)).stepRight c → Completed [1, 2, 3] c) := by
  obtain ⟨bound, hbound⟩ := transfer_noisy onceDamaged [1, 2, 3] (onlyInterrupted_once [1, 2, 3])
  refine ⟨bound, fun m c hc => ?_⟩
  obtain ⟨hm, hprefix, hend⟩ := hbound m c hc
  refine ⟨hm, hprefix, fun hstuck => (hend hstuck).2 ?_⟩
  rintro ⟨i, -, -, hfaulty⟩
  have hsecond := hfaulty 1 (by decide)
  simp [onceDamaged] at hsecond

end OsLabs.Xmodem
